import VoltDBX.Memory
import VoltDBX.Regions
import VoltDBX.Runs

/-!
Owners of the blocks of memory/buffer_pool.cpp: the pool beside a record of the blocks that
were acquired and not released yet.
-/

set_option autoImplicit false

namespace VoltDBX
open Regions

structure PoolOwners.Lease where
  block : Block
  minSize : Nat
  deriving DecidableEq, Repr

/-- The bytes the owner of a block may use: a whole block, or more if more was asked for. -/
def PoolOwners.Lease.region (blockSize : Nat) (l : PoolOwners.Lease) : Region Nat :=
  ⟨l.block.slab,l.block.offset,max blockSize l.minSize⟩

structure PoolOwners where
  pool : BufferPool
  held : List PoolOwners.Lease
  deriving DecidableEq, Repr

namespace PoolOwners

inductive Call where
  | acquire (minSize : Nat)
  | release (block : Option Block)
  deriving DecidableEq, Repr

def start (blockSize initialBlocks : Nat) : PoolOwners :=
  ⟨BufferPool.create blockSize initialBlocks,[]⟩

/-- Only a block that is held, or a null pointer, is released. -/
def step : Call → PoolOwners → Option PoolOwners
  | .acquire minSize, s =>
    some ⟨(s.pool.acquire minSize).2,⟨(s.pool.acquire minSize).1,minSize⟩ :: s.held⟩
  | .release none, s => some { s with pool := s.pool.release none }
  | .release (some b), s =>
    if b ∈ s.held.map Lease.block then
      some ⟨s.pool.release (some b),s.held.eraseP fun l => decide (l.block = b)⟩
    else none

theorem moves_copy {s t : PoolOwners} {source : Bytes}
    (h : Runs.Moves step s [.acquire source.length,
      .release (some (s.pool.acquire source.length).1)] t) :
    t.held = s.held ∧ t.pool.freeList = (StringPool.throughBlock s.pool source).freeList := by
  obtain ⟨u,hu,h⟩ := Runs.moves_cons.mp h
  obtain ⟨v,hv,h⟩ := Runs.moves_cons.mp h
  cases Runs.moves_nil.mp h
  cases hu
  rw [step,if_pos (by simp)] at hv
  cases hv
  exact ⟨by simp,rfl⟩

/-- Every held block has the bytes that were asked for, no other owner and no place in the
free list, where no block stands twice. -/
structure OneOwner (s : PoolOwners) : Prop where
  inside : ∀ l ∈ s.held, s.pool.Fits l.block l.minSize
  apart : s.held.Pairwise fun l l' =>
    Apart (l.region s.pool.blockSize) (l'.region s.pool.blockSize)
  nodup : s.pool.freeList.Nodup
  free_apart : ∀ b ∈ s.pool.freeList, ∀ l ∈ s.held,
    Apart (Lease.region s.pool.blockSize ⟨b,0⟩) (l.region s.pool.blockSize)

structure SideBySide (p : BufferPool) (ls : List Lease) : Prop where
  inside : ∀ l ∈ ls, p.Fits l.block (max p.blockSize l.minSize)
  apart : ls.Pairwise fun l l' => Apart (l.region p.blockSize) (l'.region p.blockSize)

/-- The blocks of a pool: the free ones count as leases of nothing. -/
def leases (s : PoolOwners) : List Lease := s.pool.freeList.map (fun b => ⟨b,0⟩) ++ s.held

theorem SideBySide.perm {p : BufferPool} {ls ms : List Lease} (h : SideBySide p ls)
    (hperm : ls.Perm ms) : SideBySide p ms := by
  refine ⟨fun l hl => h.inside l (hperm.mem_iff.mpr hl),?_⟩
  exact (hperm.pairwise_iff fun hab => hab.symm).mp h.apart

theorem SideBySide.shrink {p : BufferPool} {l m : Lease} {ls : List Lease}
    (h : SideBySide p (l :: ls)) (hblock : m.block = l.block)
    (hsize : max p.blockSize m.minSize ≤ max p.blockSize l.minSize) : SideBySide p (m :: ls) := by
  obtain ⟨hfirst,hrest⟩ := List.pairwise_cons.mp h.apart
  obtain ⟨hend,hslab⟩ := h.inside l (by simp)
  constructor
  · intro k hk
    rcases List.mem_cons.mp hk with rfl | hk
    · rw [hblock]
      exact ⟨by omega,hslab⟩
    · exact h.inside k (by simp [hk])
  · refine List.pairwise_cons.mpr ⟨fun k hk => ?_,hrest⟩
    exact (hfirst k hk).shrink (congrArg Block.slab hblock) (congrArg Block.offset hblock) hsize

theorem SideBySide.append_slab {p : BufferPool} {ls ms : List Lease} (h : SideBySide p ls)
    {slab : Bytes} {free : List Block} (hms : ∀ m ∈ ms, m.block.slab = p.slabs.length ∧
      m.block.offset+max p.blockSize m.minSize ≤ slab.length)
    (hapart : ms.Pairwise fun m m' => Apart (m.region p.blockSize) (m'.region p.blockSize)) :
    SideBySide ⟨p.blockSize,free,p.slabs ++ [slab]⟩ (ms ++ ls) := by
  constructor
  · intro l hl
    rcases List.mem_append.mp hl with hl | hl
    · obtain ⟨hslab,hend⟩ := hms l hl
      refine ⟨?_,by simp [hslab]⟩
      simpa [hslab] using hend
    · exact (h.inside l hl).append _ _
  · refine List.pairwise_append.mpr ⟨hapart,h.apart,?_⟩
    intro m hm l hl
    refine Or.inl fun heq => ?_
    have hlt := (h.inside l hl).2
    have hnew : m.block.slab = p.slabs.length := (hms m hm).1
    have hsame : m.block.slab = l.block.slab := heq
    omega

theorem pushBlocks_leases {blockSize slab count : Nat} (hbounded : count*blockSize < 2^64) :
    (∀ m ∈ (BufferPool.pushBlocks blockSize slab count []).map (fun b => (⟨b,0⟩ : Lease)),
      m.block.slab = slab ∧ m.block.offset+max blockSize m.minSize ≤ count*blockSize) ∧
    ((BufferPool.pushBlocks blockSize slab count []).map (fun b => (⟨b,0⟩ : Lease))).Pairwise
      fun m m' => Apart (m.region blockSize) (m'.region blockSize) := by
  induction count with
  | zero => exact ⟨by simp [BufferPool.pushBlocks],.nil⟩
  | succ count ih =>
    rw [Nat.add_mul,Nat.one_mul] at hbounded ⊢
    obtain ⟨hinside,hapart⟩ := ih (by omega)
    have hoffset : count*blockSize%2^64 = count*blockSize := Nat.mod_eq_of_lt (by omega)
    have hpush : BufferPool.pushBlocks blockSize slab (count+1) [] =
        ⟨slab,count*blockSize⟩ :: BufferPool.pushBlocks blockSize slab count [] := by
      rw [BufferPool.pushBlocks,List.range_succ,List.foldl_append]
      simp only [List.foldl_cons,List.foldl_nil,hoffset]
      rfl
    rw [hpush,List.map_cons]
    constructor
    · rw [List.forall_mem_cons]
      refine ⟨⟨rfl,by simp⟩,fun m hm => ?_⟩
      have hm' := hinside m hm
      exact ⟨hm'.1,by omega⟩
    · refine List.pairwise_cons.mpr ⟨fun m hm => ?_,hapart⟩
      exact Or.inr (Or.inr (hinside m hm).2)

structure Kept (blockSize : Nat) (s : PoolOwners) : Prop where
  size : s.pool.blockSize = blockSize
  sideBySide : SideBySide s.pool s.leases

theorem kept_start {blockSize initialBlocks : Nat} (hinitial : initialBlocks*blockSize < 2^64) :
    Kept blockSize (start blockSize initialBlocks) := by
  refine ⟨rfl,?_⟩
  obtain ⟨hinside,hapart⟩ := @pushBlocks_leases blockSize 0 initialBlocks hinitial
  have hempty : SideBySide ⟨blockSize,[],[]⟩ [] := ⟨by simp,.nil⟩
  have hlen : (List.replicate (initialBlocks*blockSize%2^64) (0 : UInt8)).length =
      initialBlocks*blockSize := by
    rw [List.length_replicate,Nat.mod_eq_of_lt hinitial]
  exact hempty.append_slab (fun m hm => by rw [hlen]; exact hinside m hm) hapart

theorem Kept.refill {blockSize : Nat} {s : PoolOwners} (h : Kept blockSize s)
    (hbounded : blockSize*64 < 2^64) : Kept blockSize ⟨s.pool.refill,s.held⟩ := by
  by_cases hempty : s.pool.freeList = []
  · rw [BufferPool.refill_eq_of_empty hempty]
    refine ⟨h.size,?_⟩
    have hheld : SideBySide s.pool s.held := by
      have hleases := h.sideBySide
      rwa [leases,hempty,List.map_nil,List.nil_append] at hleases
    rw [← h.size,Nat.mul_comm] at hbounded
    obtain ⟨hinside,hapart⟩ :=
      @pushBlocks_leases s.pool.blockSize s.pool.slabs.length 64 hbounded
    have hlen : (List.replicate (s.pool.blockSize*64%2^64) (0 : UInt8)).length =
        64*s.pool.blockSize := by
      rw [List.length_replicate,Nat.mul_comm,Nat.mod_eq_of_lt hbounded]
    exact hheld.append_slab (fun m hm => by rw [hlen]; exact hinside m hm) hapart
  · rw [BufferPool.refill_of_ne hempty]
    exact h

theorem Kept.acquire {blockSize : Nat} {s : PoolOwners} (h : Kept blockSize s)
    (hbounded : blockSize*64 < 2^64) (minSize : Nat) :
    Kept blockSize ⟨(s.pool.acquire minSize).2,⟨(s.pool.acquire minSize).1,minSize⟩ :: s.held⟩ := by
  by_cases hbig : s.pool.blockSize < minSize
  · -- a slab of its own
    have hacquire : s.pool.acquire minSize = (⟨s.pool.slabs.length,0⟩,⟨s.pool.blockSize,
        s.pool.freeList,s.pool.slabs ++ [List.replicate minSize 0]⟩) := by
      simp [BufferPool.acquire,hbig]
    rw [hacquire]
    refine ⟨h.size,?_⟩
    have hnew : SideBySide
        ⟨s.pool.blockSize,s.pool.freeList,s.pool.slabs ++ [List.replicate minSize 0]⟩
        ([⟨⟨s.pool.slabs.length,0⟩,minSize⟩] ++ s.leases) := by
      refine h.sideBySide.append_slab ?_ (List.pairwise_singleton _ _)
      intro m hm
      rw [List.mem_singleton.mp hm,List.length_replicate]
      exact ⟨rfl,by dsimp only; omega⟩
    rw [leases,List.singleton_append] at hnew
    exact hnew.perm List.perm_middle.symm
  · -- the back of the free list
    have hrefill := h.refill hbounded
    obtain ⟨b,free,hfree⟩ := List.exists_cons_of_ne_nil s.pool.refill_ne_nil
    have hacquire : s.pool.acquire minSize =
        (b,⟨s.pool.blockSize,free,s.pool.refill.slabs⟩) := by
      simp [BufferPool.acquire,hbig,hfree]
    rw [hacquire]
    refine ⟨h.size,?_⟩
    have hleases := hrefill.sideBySide
    rw [leases,hfree,List.map_cons,List.cons_append] at hleases
    have hsize : max s.pool.refill.blockSize minSize ≤ max s.pool.refill.blockSize 0 := by
      rw [BufferPool.refill_blockSize]
      omega
    have htaken := (hleases.shrink (m := ⟨b,minSize⟩) rfl hsize).perm List.perm_middle.symm
    rw [← BufferPool.refill_blockSize]
    exact ⟨htaken.inside,htaken.apart⟩

theorem Kept.release {blockSize : Nat} {s : PoolOwners} (h : Kept blockSize s) {b : Block}
    (hb : b ∈ s.held.map Lease.block) :
    Kept blockSize ⟨s.pool.release (some b),s.held.eraseP fun l => decide (l.block = b)⟩ := by
  obtain ⟨l,hl,hblock⟩ := List.mem_map.mp hb
  obtain ⟨m,before,after,hbefore,hm,hheld,herase⟩ :=
    @List.exists_of_eraseP _ (fun l => decide (l.block = b)) s.held l hl (by simp [hblock])
  have hmb : m.block = b := by simpa using hm
  refine ⟨h.size,?_⟩
  have hleases := h.sideBySide
  rw [leases,hheld,← List.append_assoc] at hleases
  have hfront := hleases.perm List.perm_middle
  have hshrunk := hfront.shrink (m := ⟨b,0⟩) hmb.symm (by dsimp only; omega)
  rw [leases,herase]
  change SideBySide ⟨s.pool.blockSize,b :: s.pool.freeList,s.pool.slabs⟩
    (⟨b,0⟩ :: s.pool.freeList.map (fun b => ⟨b,0⟩) ++ (before ++ after))
  rw [List.cons_append,← List.append_assoc]
  exact ⟨hshrunk.inside,hshrunk.apart⟩

theorem Kept.step {blockSize : Nat} {s t : PoolOwners} (h : Kept blockSize s)
    (hbounded : blockSize*64 < 2^64) {c : Call} (hstep : PoolOwners.step c s = some t) :
    Kept blockSize t := by
  cases c with
  | acquire minSize =>
    cases hstep
    exact h.acquire hbounded minSize
  | release block =>
    cases block with
    | none =>
      cases hstep
      exact h
    | some b =>
      by_cases hb : b ∈ s.held.map Lease.block
      · rw [PoolOwners.step,if_pos hb] at hstep
        cases hstep
        exact h.release hb
      · rw [PoolOwners.step,if_neg hb] at hstep
        cases hstep

theorem Kept.oneOwner {blockSize : Nat} {s : PoolOwners} (h : Kept blockSize s)
    (hpos : 0 < blockSize) : s.OneOwner := by
  obtain ⟨hfree,hheld,hacross⟩ := List.pairwise_append.mp h.sideBySide.apart
  rw [← h.size] at hpos
  refine ⟨?_,hheld,?_,?_⟩
  · intro l hl
    obtain ⟨hend,hslab⟩ := h.sideBySide.inside l (List.mem_append_right _ hl)
    exact ⟨by omega,hslab⟩
  · refine (List.pairwise_map.mp hfree).imp ?_
    intro b c hapart heq
    subst heq
    rcases hapart with hspace | hend | hend
    · exact hspace rfl
    · simp only [Lease.region] at hend
      omega
    · simp only [Lease.region] at hend
      omega
  · intro b hb l hl
    exact hacross _ (List.mem_map.mpr ⟨b,hb,rfl⟩) l hl

theorem oneOwner_moves {blockSize initialBlocks : Nat} (hpos : 0 < blockSize)
    (hbounded : blockSize*64 < 2^64) (hinitial : initialBlocks*blockSize < 2^64)
    {calls : List Call} {s : PoolOwners}
    (hrun : Runs.Moves step (start blockSize initialBlocks) calls s) : s.OneOwner := by
  have hkept : Kept blockSize s := Runs.moves_invariant
    (fun c _ u v hu hstep => hu.step hbounded hstep) (kept_start hinitial) hrun
  exact hkept.oneOwner hpos

theorem fits_free {s : PoolOwners}
    (h : ∀ calls t, Runs.Moves step s calls t → t.OneOwner) {b : Block}
    (hb : b ∈ s.pool.refill.freeList) : s.pool.refill.Fits b s.pool.blockSize := by
  obtain ⟨ready,hready⟩ : ∃ ready, s.pool.refill.freeList = ready := ⟨_,rfl⟩
  induction ready generalizing s with
  | nil => exact absurd hready s.pool.refill_ne_nil
  | cons c free ih =>
    let p : BufferPool := ⟨s.pool.blockSize,free,s.pool.refill.slabs⟩
    have hmove : step (.acquire s.pool.blockSize) s =
        some ⟨p,⟨c,s.pool.blockSize⟩ :: s.held⟩ := by
      simp [step,BufferPool.acquire,hready,p]
    have hnext : ∀ calls t, Runs.Moves step ⟨p,⟨c,s.pool.blockSize⟩ :: s.held⟩ calls t →
        t.OneOwner := fun calls t ht => h (_ :: calls) t (Runs.moves_cons.mpr ⟨_,hmove,ht⟩)
    rw [hready,List.mem_cons] at hb
    rcases hb with rfl | hb
    · exact (hnext [] _ (Runs.moves_nil.mpr rfl)).inside _ List.mem_cons_self
    · -- the rest of the free list is handed out next
      have hsame : p.refill = p := BufferPool.refill_of_ne (List.ne_nil_of_mem hb)
      have hfree : p.refill.freeList = free := congrArg BufferPool.freeList hsame
      have hrest : p.refill.Fits b p.blockSize := ih hnext (by rw [hfree]; exact hb) hfree
      rwa [hsame] at hrest

theorem slab_bounded {blockSize count : Nat}
    (h : ∀ i < count, i*blockSize%2^64+blockSize ≤ count*blockSize%2^64) :
    count*blockSize < 2^64 := by
  have hsmall : ∀ i ≤ count, i*blockSize < 2^64 := by
    intro i hi
    induction i with
    | zero => simp
    | succ i ih =>
      have hroom := h i hi
      have hlt := Nat.mod_lt (count*blockSize) (show 2^64 > 0 by decide)
      rw [Nat.mod_eq_of_lt (ih (by omega))] at hroom
      rw [Nat.add_mul,Nat.one_mul]
      omega
  exact hsmall count (Nat.le_refl _)

theorem slab_bounded_of_fits {p : BufferPool} {count slab : Nat}
    (hlen : (p.slabs.getD slab []).length = count*p.blockSize%2^64)
    (h : ∀ i < count, p.Fits ⟨slab,i*p.blockSize%2^64⟩ p.blockSize) :
    count*p.blockSize < 2^64 := by
  refine slab_bounded fun i hi => ?_
  have hend := (h i hi).1
  rwa [hlen] at hend

theorem exists_drained (s : PoolOwners) :
    ∃ calls t, Runs.Moves step s calls t ∧ t.pool.freeList = [] ∧
      t.pool.blockSize = s.pool.blockSize := by
  obtain ⟨pool,held⟩ := s
  obtain ⟨blockSize,free,slabs⟩ := pool
  induction free generalizing held with
  | nil => exact ⟨[],_,Runs.moves_nil.mpr rfl,rfl,rfl⟩
  | cons b free ih =>
    obtain ⟨calls,t,ht,hempty,hsize⟩ := ih (⟨b,0⟩ :: held)
    exact ⟨.acquire 0 :: calls,t,Runs.moves_cons.mpr ⟨_,rfl,ht⟩,hempty,hsize⟩

/-- In every run every acquired block has the bytes asked for, inside its slab and with no
other owner, and no block is free twice or while it is held, if and only if neither the first
slab nor the next ones have a size that wraps. -/
theorem pool_blocks_have_one_owner_iff {blockSize initialBlocks : Nat} (hpos : 0 < blockSize) :
    (∀ (calls : List Call) (s : PoolOwners),
      Runs.Moves step (start blockSize initialBlocks) calls s → s.OneOwner) ↔
    blockSize*64 < 2^64 ∧ initialBlocks*blockSize < 2^64 := by
  constructor
  · intro h
    constructor
    · obtain ⟨calls,s,hrun,hempty,hsize⟩ := exists_drained (start blockSize initialBlocks)
      have hsize : s.pool.blockSize = blockSize := hsize
      have hs : ∀ more t, Runs.Moves step s more t → t.OneOwner := fun more t ht =>
        h (calls ++ more) t (Runs.moves_append.mpr ⟨s,hrun,ht⟩)
      have hslab := @slab_bounded_of_fits s.pool.refill 64 s.pool.slabs.length
        (by rw [BufferPool.refill_eq_of_empty hempty]; simp [Nat.mul_comm 64]) (fun i hi => by
          rw [BufferPool.refill_blockSize]
          refine fits_free hs ?_
          rw [BufferPool.refill_eq_of_empty hempty]
          exact BufferPool.mem_pushBlocks.mpr (Or.inr ⟨i,hi,rfl⟩))
      rwa [BufferPool.refill_blockSize,hsize,Nat.mul_comm] at hslab
    · rcases Nat.eq_zero_or_pos initialBlocks with rfl | hsome
      · simp
      · have hmem : ∀ i < initialBlocks, (⟨0,i*blockSize%2^64⟩ : Block) ∈
            (start blockSize initialBlocks).pool.freeList := fun i hi =>
          BufferPool.mem_pushBlocks.mpr (Or.inr ⟨i,hi,rfl⟩)
        have hsame : (start blockSize initialBlocks).pool.refill =
            (start blockSize initialBlocks).pool :=
          BufferPool.refill_of_ne (List.ne_nil_of_mem (hmem 0 hsome))
        refine @slab_bounded_of_fits (start blockSize initialBlocks).pool initialBlocks 0
          (by simp [start,BufferPool.create]) fun i hi => ?_
        have hfits := fits_free h (b := ⟨0,i*blockSize%2^64⟩) (by rw [hsame]; exact hmem i hi)
        rwa [hsame] at hfits
  · rintro ⟨hbounded,hinitial⟩ calls s hrun
    exact oneOwner_moves hpos hbounded hinitial hrun

theorem pool_blocks_have_one_owner_example :
    ∃ s, Runs.Moves step (start 4 1)
      [.acquire 9,.acquire 2,.release (some ⟨1,0⟩),.acquire 3,.release none] s ∧
      s.held = [⟨⟨1,0⟩,3⟩,⟨⟨0,0⟩,2⟩] ∧ s.OneOwner := by
  have hrun : Runs.Moves step (start 4 1)
      [.acquire 9,.acquire 2,.release (some ⟨1,0⟩),.acquire 3,.release none]
      ⟨⟨4,[],[List.replicate 4 0,List.replicate 9 0]⟩,[⟨⟨1,0⟩,3⟩,⟨⟨0,0⟩,2⟩]⟩ :=
    Runs.moves_iff_foldlM.mpr (by decide)
  have hall := (@pool_blocks_have_one_owner_iff 4 1 (by decide)).mpr ⟨by decide,by decide⟩
  exact ⟨_,hrun,rfl,hall _ _ hrun⟩

/-- With blocks of 2^58 bytes a slab of 64 of them has size 0 in 64 bits, and the first block
that is handed out lies behind its end. -/
theorem wrapped_slab_has_no_room :
    ¬ ∀ blockSize initialBlocks : Nat, 0 < blockSize → ∀ (calls : List Call) (s : PoolOwners),
      Runs.Moves step (start blockSize initialBlocks) calls s → s.OneOwner := by
  intro h
  have howner := h (2^58) 0 (by decide) [.acquire 1] _ (Runs.moves_iff_foldlM.mpr rfl)
  have hfits := howner.inside _ (List.mem_singleton.mpr rfl)
  exact absurd hfits.1 (by decide)

end PoolOwners
end VoltDBX
