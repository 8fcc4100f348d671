import VoltDBX.Regions
import VoltDBX.Runs

/-!
The arena of memory/arena_allocator.cpp. A returned pointer is the number of a block with an
offset into it; of a block's bytes only their number matters.
-/

set_option autoImplicit false

namespace VoltDBX
open Regions

structure ArenaAllocator.Block where
  size : UInt64
  offset : UInt64
  deriving DecidableEq, Repr

structure ArenaAllocator.Pointer where
  block : Nat
  offset : UInt64
  deriving DecidableEq, Repr

/-- The back of the vector `blocks_` is the head of `blocks`. -/
structure ArenaAllocator where
  blockSize : UInt64
  blocks : List ArenaAllocator.Block
  bytesAllocated : UInt64
  deriving DecidableEq, Repr

namespace ArenaAllocator

def create (blockSize : UInt64) : ArenaAllocator := ⟨blockSize,[⟨blockSize,0⟩],0⟩

def blockCount (a : ArenaAllocator) : Nat := a.blocks.length

/-- The last block and those before it; where there is none, one is made first. -/
def back (a : ArenaAllocator) : Block × List Block :=
  match a.blocks with
  | [] => (⟨a.blockSize,0⟩,[])
  | block :: blocks => (block,blocks)

def aligned (offset alignment : UInt64) : UInt64 := (offset+alignment-1) &&& ~~~(alignment-1)

/-- A request that does not fit into the last block is made again with a new one behind it.
The first argument bounds the depth of these calls. -/
def allocateFuel : Nat → ArenaAllocator → UInt64 → UInt64 → Option (Pointer × ArenaAllocator)
  | 0, _, _, _ => none
  | fuel+1, a, size, alignment =>
    let (block,blocks) := a.back
    let start := aligned block.offset alignment
    if block.size < start+size then
      allocateFuel fuel
        { a with blocks := ⟨max a.blockSize size,0⟩ :: block :: blocks } size alignment
    else some (⟨blocks.length,start⟩,
      { a with
        blocks := ⟨block.size,start+size⟩ :: blocks
        bytesAllocated := a.bytesAllocated+size })

def reset (a : ArenaAllocator) : ArenaAllocator :=
  { a with blocks := a.blocks.map (fun b => ⟨b.size,0⟩), bytesAllocated := 0 }

/-- The alignment is a power of two and nothing overflows. -/
def Admitted (a : ArenaAllocator) (size alignment : UInt64) : Prop :=
  (∃ k, alignment.toNat = 2^k) ∧
    a.back.1.offset.toNat+size.toNat+alignment.toNat < 2^64

def HasRoom (a : ArenaAllocator) (size alignment : UInt64) : Prop :=
  alignUp a.back.1.offset.toNat alignment.toNat+size.toNat ≤ a.back.1.size.toNat

instance (a : ArenaAllocator) (size alignment : UInt64) : Decidable (a.HasRoom size alignment) :=
  inferInstanceAs (Decidable (_ ≤ _))

theorem back_cons (blockSize : UInt64) (b : Block) (bs : List Block) (n : UInt64) :
    back ⟨blockSize,b :: bs,n⟩ = (b,bs) := rfl

theorem aligned_zero (alignment : UInt64) : aligned 0 alignment = 0 := by
  unfold aligned
  rw [UInt64.zero_add,UInt64.and_not_self]

theorem toNat_max (x y : UInt64) : (max x y).toNat = max x.toNat y.toNat := by
  change (if x ≤ y then y else x).toNat = _
  by_cases h : x ≤ y
  · rw [if_pos h,Nat.max_eq_right (UInt64.le_iff_toNat_le.mp h)]
  · rw [if_neg h,Nat.max_eq_left (Nat.le_of_not_le fun hle => h (UInt64.le_iff_toNat_le.mpr hle))]

theorem Admitted.alignment_pos {a : ArenaAllocator} {size alignment : UInt64}
    (h : a.Admitted size alignment) : 0 < alignment.toNat := by
  obtain ⟨⟨k,hk⟩,-⟩ := h
  rw [hk]
  exact Nat.two_pow_pos k

theorem Admitted.toNat_end {a : ArenaAllocator} {size alignment : UInt64}
    (h : a.Admitted size alignment) :
    (aligned a.back.1.offset alignment).toNat =
      alignUp a.back.1.offset.toNat alignment.toNat ∧
    (aligned a.back.1.offset alignment+size).toNat =
      alignUp a.back.1.offset.toNat alignment.toNat+size.toNat := by
  have hpos := h.alignment_pos
  obtain ⟨⟨k,hk⟩,hsum⟩ := h
  have hstart : (aligned a.back.1.offset alignment).toNat =
      alignUp a.back.1.offset.toNat alignment.toNat := toNat_align hk (by omega)
  have hlt := alignUp_lt a.back.1.offset.toNat hpos
  refine ⟨hstart,?_⟩
  rw [UInt64.toNat_add,hstart,Nat.mod_eq_of_lt (by omega)]

def filled (a : ArenaAllocator) (size alignment : UInt64) : ArenaAllocator :=
  { a with
    blocks := ⟨a.back.1.size,aligned a.back.1.offset alignment+size⟩ :: a.back.2
    bytesAllocated := a.bytesAllocated+size }

def extended (a : ArenaAllocator) (size : UInt64) : ArenaAllocator :=
  { a with
    blocks := ⟨max a.blockSize size,size⟩ :: a.back.1 :: a.back.2
    bytesAllocated := a.bytesAllocated+size }

theorem allocateFuel_of_room {a : ArenaAllocator} {size alignment : UInt64}
    (h : a.Admitted size alignment) (hroom : a.HasRoom size alignment) (fuel : Nat) :
    allocateFuel (fuel+1) a size alignment =
      some (⟨a.back.2.length,aligned a.back.1.offset alignment⟩,a.filled size alignment) := by
  have hnot : ¬ a.back.1.size < aligned a.back.1.offset alignment+size := by
    rw [UInt64.lt_iff_toNat_lt,h.toNat_end.2]
    exact Nat.not_lt.mpr hroom
  simp only [allocateFuel,hnot,if_false]
  rfl

theorem allocateFuel_of_no_room {a : ArenaAllocator} {size alignment : UInt64}
    (h : a.Admitted size alignment) (hroom : ¬ a.HasRoom size alignment) (fuel : Nat) :
    allocateFuel (fuel+2) a size alignment =
      some (⟨a.back.2.length+1,0⟩,a.extended size) := by
  have hfull : a.back.1.size < aligned a.back.1.offset alignment+size := by
    rw [UInt64.lt_iff_toNat_lt,h.toNat_end.2]
    exact Nat.not_le.mp hroom
  have hfits : ¬ max a.blockSize size < size := by
    rw [UInt64.lt_iff_toNat_lt,toNat_max]
    omega
  rw [allocateFuel]
  simp only [hfull,if_true]
  rw [allocateFuel]
  simp only [back_cons,aligned_zero,UInt64.zero_add,hfits,if_false]
  rfl

def blockAt (a : ArenaAllocator) (i : Nat) : Option Block := a.blocks.reverse[i]?

theorem blockAt_cons {a : ArenaAllocator} {b : Block} {bs : List Block} (h : a.blocks = b :: bs)
    (i : Nat) : a.blockAt i = if i = bs.length then some b else bs.reverse[i]? := by
  rw [blockAt,h,List.reverse_cons,List.getElem?_append,List.length_reverse]
  by_cases hi : i = bs.length
  · simp [hi]
  · by_cases hlt : i < bs.length
    · simp [hi,hlt]
    · rw [if_neg hlt,if_neg hi,List.getElem?_eq_none (by simp; omega),
        List.getElem?_eq_none (by simp; omega)]

end ArenaAllocator

open ArenaAllocator

structure ArenaRun.Grant where
  pointer : Pointer
  size : UInt64
  alignment : UInt64
  deriving DecidableEq, Repr

def ArenaRun.Grant.region (g : ArenaRun.Grant) : Region Nat :=
  ⟨g.pointer.block,g.pointer.offset.toNat,g.size.toNat⟩

structure ArenaRun where
  arena : ArenaAllocator
  live : List ArenaRun.Grant
  deriving DecidableEq, Repr

namespace ArenaRun

inductive Call where
  | allocate (size alignment : UInt64)
  | reset
  deriving DecidableEq, Repr

def start (blockSize : UInt64) : ArenaRun := ⟨ArenaAllocator.create blockSize,[]⟩

/-- No step where the request is made again more than `fuel-1` times. -/
def step (fuel : Nat) : Call → ArenaRun → Option ArenaRun
  | .allocate size alignment, r =>
    (allocateFuel fuel r.arena size alignment).map fun p => ⟨p.2,⟨p.1,size,alignment⟩ :: r.live⟩
  | .reset, r => some ⟨r.arena.reset,[]⟩

def Admitted (r : ArenaRun) : Call → Prop
  | .allocate size alignment => r.arena.Admitted size alignment
  | .reset => True

/-- What a run keeps: each grant lies below the offset of its block, which lies inside it. -/
structure Placed (r : ArenaRun) : Prop where
  nonempty : r.arena.blocks ≠ []
  inside : ∀ g ∈ r.live, ∃ b, r.arena.blockAt g.pointer.block = some b ∧
    g.region.start+g.region.size ≤ b.offset.toNat ∧ b.offset.toNat ≤ b.size.toNat
  aligned : ∀ g ∈ r.live, g.alignment.toNat ∣ g.region.start
  apart : r.live.Pairwise fun g g' => Apart g.region g'.region
  counted : r.arena.bytesAllocated.toNat = (r.live.map fun g => g.size.toNat).sum%2^64

theorem placed_start (blockSize : UInt64) : (start blockSize).Placed :=
  ⟨by simp [start,ArenaAllocator.create],by simp [start],by simp [start],.nil,rfl⟩

theorem Placed.reset {r : ArenaRun} (h : r.Placed) : Placed ⟨r.arena.reset,[]⟩ :=
  ⟨by simpa [ArenaAllocator.reset] using h.nonempty,by simp,by simp,.nil,rfl⟩

theorem Placed.blocks_eq {r : ArenaRun} (h : r.Placed) :
    r.arena.blocks = r.arena.back.1 :: r.arena.back.2 := by
  unfold ArenaAllocator.back
  cases hb : r.arena.blocks with
  | nil => exact absurd hb h.nonempty
  | cons b bs => rfl

theorem counted_cons {count size : UInt64} {n : Nat} (h : count.toNat = n%2^64) :
    (count+size).toNat = (size.toNat+n)%2^64 := by
  rw [UInt64.toNat_add,h,Nat.mod_add_mod,Nat.add_comm]

theorem Placed.filled {r : ArenaRun} (h : r.Placed) {size alignment : UInt64}
    (hadmitted : r.arena.Admitted size alignment) (hroom : r.arena.HasRoom size alignment) :
    Placed ⟨r.arena.filled size alignment,
      ⟨⟨r.arena.back.2.length,ArenaAllocator.aligned r.arena.back.1.offset alignment⟩,
        size,alignment⟩ :: r.live⟩ := by
  obtain ⟨hstart,hend⟩ := hadmitted.toNat_end
  have hle := le_alignUp r.arena.back.1.offset.toNat hadmitted.alignment_pos
  have hold := fun i => ArenaAllocator.blockAt_cons h.blocks_eq i
  have hnew := fun i => ArenaAllocator.blockAt_cons
    (show (r.arena.filled size alignment).blocks = _ from rfl) i
  -- a grant in the last block ends before the offset the request starts from
  have hbelow : ∀ g ∈ r.live, g.pointer.block = r.arena.back.2.length →
      g.region.start+g.region.size ≤ r.arena.back.1.offset.toNat := by
    intro g hg hblock
    obtain ⟨b,hb,hoffset,-⟩ := h.inside g hg
    rw [hold,if_pos hblock] at hb
    cases hb
    exact hoffset
  refine ⟨List.cons_ne_nil _ _,?_,?_,?_,?_⟩
  · rw [List.forall_mem_cons]
    constructor
    · refine ⟨_,by rw [hnew,if_pos rfl],?_,?_⟩
      · rw [hend]
        exact Nat.le_of_eq (congrArg (· + size.toNat) hstart)
      · rw [hend]
        exact hroom
    · intro g hg
      by_cases hblock : g.pointer.block = r.arena.back.2.length
      · refine ⟨_,by rw [hnew,if_pos hblock],?_,?_⟩
        · have hg' := hbelow g hg hblock
          rw [hend]
          omega
        · rw [hend]
          exact hroom
      · obtain ⟨b,hb,hbounds⟩ := h.inside g hg
        rw [hold,if_neg hblock] at hb
        exact ⟨b,by rw [hnew,if_neg hblock,hb],hbounds⟩
  · rw [List.forall_mem_cons]
    refine ⟨?_,h.aligned⟩
    change _ ∣ (ArenaAllocator.aligned r.arena.back.1.offset alignment).toNat
    rw [hstart]
    exact dvd_alignUp _ _
  · rw [List.pairwise_cons]
    refine ⟨?_,h.apart⟩
    intro g hg
    by_cases hblock : g.pointer.block = r.arena.back.2.length
    · refine Or.inr (Or.inr ?_)
      have hg' := hbelow g hg hblock
      change _ ≤ (ArenaAllocator.aligned r.arena.back.1.offset alignment).toNat
      omega
    · exact Or.inl fun heq => hblock heq.symm
  · exact counted_cons h.counted

theorem Placed.extended {r : ArenaRun} (h : r.Placed) (size alignment : UInt64) :
    Placed ⟨r.arena.extended size,⟨⟨r.arena.back.2.length+1,0⟩,size,alignment⟩ :: r.live⟩ := by
  have hnew := fun i => ArenaAllocator.blockAt_cons
    (show (r.arena.extended size).blocks = _ from rfl) i
  simp only [List.length_cons] at hnew
  -- the block is new, so no grant is in it
  have hother : ∀ g ∈ r.live, g.pointer.block ≠ r.arena.back.2.length+1 := by
    intro g hg heq
    obtain ⟨b,hb,-⟩ := h.inside g hg
    have hlt := (List.getElem?_eq_some_iff.mp hb).1
    rw [List.length_reverse,h.blocks_eq,List.length_cons] at hlt
    omega
  refine ⟨List.cons_ne_nil _ _,?_,?_,?_,?_⟩
  · rw [List.forall_mem_cons]
    constructor
    · refine ⟨_,(hnew _).trans (if_pos rfl),?_,?_⟩
      · change 0+size.toNat ≤ size.toNat
        omega
      · rw [ArenaAllocator.toNat_max]
        exact Nat.le_max_right _ _
    · intro g hg
      obtain ⟨b,hb,hbounds⟩ := h.inside g hg
      rw [ArenaAllocator.blockAt,h.blocks_eq] at hb
      exact ⟨b,by rw [hnew,if_neg (hother g hg),hb],hbounds⟩
  · rw [List.forall_mem_cons]
    exact ⟨Nat.dvd_zero _,h.aligned⟩
  · rw [List.pairwise_cons]
    exact ⟨fun g hg => Or.inl fun heq => hother g hg heq.symm,h.apart⟩
  · exact counted_cons h.counted

theorem step_allocate {r : ArenaRun} {size alignment : UInt64}
    (h : r.arena.Admitted size alignment) (fuel : Nat) :
    step (fuel+2) (.allocate size alignment) r = some
      (if r.arena.HasRoom size alignment then
        ⟨r.arena.filled size alignment,
          ⟨⟨r.arena.back.2.length,ArenaAllocator.aligned r.arena.back.1.offset alignment⟩,
            size,alignment⟩ :: r.live⟩
      else
        ⟨r.arena.extended size,⟨⟨r.arena.back.2.length+1,0⟩,size,alignment⟩ :: r.live⟩) := by
  by_cases hroom : r.arena.HasRoom size alignment
  · rw [step,allocateFuel_of_room h hroom,if_pos hroom]
    rfl
  · rw [step,allocateFuel_of_no_room h hroom,if_neg hroom]
    rfl

/-- A call on admitted arguments goes through at every depth from two on, in the same way, and
keeps the grants in place. -/
theorem Placed.step {r : ArenaRun} (h : r.Placed) {c : Call} (hc : r.Admitted c) :
    ∃ t, t.Placed ∧ ∀ fuel, ArenaRun.step (fuel+2) c r = some t := by
  cases c with
  | reset => exact ⟨_,h.reset,fun _ => rfl⟩
  | allocate size alignment =>
    refine ⟨_,?_,fun fuel => step_allocate hc fuel⟩
    by_cases hroom : r.arena.HasRoom size alignment
    · rw [if_pos hroom]
      exact h.filled hc hroom
    · rw [if_neg hroom]
      exact h.extended size alignment

theorem Placed.moves {r : ArenaRun} (h : r.Placed) {calls : List Call}
    (hcalls : Runs.AlongMoves (ArenaRun.step 2) Admitted r calls) :
    ∃ t, t.Placed ∧ ∀ fuel, Runs.Moves (ArenaRun.step (fuel+2)) r calls t := by
  induction calls generalizing r with
  | nil => exact ⟨r,h,fun _ => Runs.moves_nil.mpr rfl⟩
  | cons c calls ih =>
    obtain ⟨u,hu,hstep⟩ := h.step hcalls.head
    obtain ⟨t,ht,hmoves⟩ := ih hu (hcalls.tail (hstep 0))
    exact ⟨t,ht,fun fuel => Runs.moves_cons.mpr ⟨u,hstep fuel,hmoves fuel⟩⟩

/-- Every run of admitted requests and resets goes through, no request being made more than
twice. What was handed out since the last reset lies inside its blocks, at multiples of the
alignments, without an overlap, and its sizes are counted. -/
theorem arena_grants_apart {blockSize : UInt64} {calls : List Call}
    (h : Runs.AlongMoves (step 2) Admitted (start blockSize) calls) :
    ∃ t, (∀ fuel, Runs.Moves (step (fuel+2)) (start blockSize) calls t) ∧
      (∀ g ∈ t.live, ∃ b, t.arena.blockAt g.pointer.block = some b ∧
        g.region.start+g.region.size ≤ b.size.toNat) ∧
      (∀ g ∈ t.live, g.alignment.toNat ∣ g.region.start) ∧
      (t.live.Pairwise fun g g' => Apart g.region g'.region) ∧
      t.arena.bytesAllocated.toNat = (t.live.map fun g => g.size.toNat).sum%2^64 ∧
      ((t.live.map fun g => g.size.toNat).sum < 2^64 →
        t.arena.bytesAllocated.toNat = (t.live.map fun g => g.size.toNat).sum) := by
  obtain ⟨t,ht,hmoves⟩ := (placed_start blockSize).moves h
  refine ⟨t,hmoves,?_,ht.aligned,ht.apart,ht.counted,?_⟩
  · intro g hg
    obtain ⟨b,hb,hoffset,hsize⟩ := ht.inside g hg
    exact ⟨b,hb,Nat.le_trans hoffset hsize⟩
  · intro hsum
    rw [ht.counted,Nat.mod_eq_of_lt hsum]

/-- The second request needs a block of its own; after the reset it is the first again. -/
theorem arena_grants_apart_example :
    let calls : List Call := [.allocate 5 8,.allocate 16 4,.reset,.allocate 5 1,.allocate 4 4]
    ∃ t, Runs.Moves (step 2) (start 16) calls t ∧
      (t.live.Pairwise fun g g' => Apart g.region g'.region) ∧
      t.arena.bytesAllocated.toNat = 9 := by
  intro calls
  have hcalls : Runs.AlongMoves (step 2) Admitted (start 16) calls := by
    refine Runs.alongMoves_cons rfl ⟨⟨3,rfl⟩,by decide⟩ ?_
    refine Runs.alongMoves_cons rfl ⟨⟨2,rfl⟩,by decide⟩ ?_
    refine Runs.alongMoves_cons rfl trivial ?_
    refine Runs.alongMoves_cons rfl ⟨⟨0,rfl⟩,by decide⟩ ?_
    exact Runs.alongMoves_cons rfl ⟨⟨2,rfl⟩,by decide⟩ trivial
  obtain ⟨t,hmoves,-,-,hapart,hbytes,-⟩ := arena_grants_apart hcalls
  refine ⟨t,hmoves 0,hapart,?_⟩
  have hend := Runs.moves_iff_foldlM.mp (hmoves 0)
  have hlive : t.live.map (fun g => g.size.toNat) = [4,5] := by
    cases hend
    rfl
  rw [hbytes,hlive]
  rfl

end ArenaRun
end VoltDBX
