import VoltDBX.Arena

/-!
The same requests again after a reset: when the arena gets by with the blocks it has.
-/

set_option autoImplicit false

namespace VoltDBX
open Regions ArenaAllocator

namespace ArenaRun

def requests (rs : List (UInt64 × UInt64)) : List Call := rs.map fun r => .allocate r.1 r.2

def numbers (rs : List (UInt64 × UInt64)) : List (Nat × Nat) := rs.map fun r => (r.1.toNat,r.2.toNat)

def largest (rs : List (UInt64 × UInt64)) : Nat := (rs.map fun r => r.1.toNat).foldr max 0

def cycles (n : Nat) (rs : List (UInt64 × UInt64)) : List Call :=
  requests rs ++ (List.replicate n (.reset :: requests rs)).flatten

def offset (r : ArenaRun) : Nat := r.arena.back.1.offset.toNat

def capacity (r : ArenaRun) : Nat := r.arena.back.1.size.toNat

def blockCount (r : ArenaRun) : Nat := r.arena.blockCount

@[simp] theorem offset_start (blockSize : UInt64) : (start blockSize).offset = 0 := rfl

@[simp] theorem capacity_start (blockSize : UInt64) :
    (start blockSize).capacity = blockSize.toNat := rfl

@[simp] theorem blockSize_start (blockSize : UInt64) :
    (start blockSize).arena.blockSize = blockSize := rfl

theorem requests_append (rs : List (UInt64 × UInt64)) (p : UInt64 × UInt64)
    (qs : List (UInt64 × UInt64)) :
    requests (rs ++ p :: qs) = requests rs ++ .allocate p.1 p.2 :: requests qs := by
  simp [requests]

theorem numbers_append (rs : List (UInt64 × UInt64)) (p : UInt64 × UInt64)
    (qs : List (UInt64 × UInt64)) :
    numbers (rs ++ p :: qs) = numbers rs ++ (p.1.toNat,p.2.toNat) :: numbers qs := by
  simp [numbers]

theorem le_largest {rs : List (UInt64 × UInt64)} {r : UInt64 × UInt64} (h : r ∈ rs) :
    r.1.toNat ≤ largest rs := by
  induction rs with
  | nil => cases h
  | cons q rs ih =>
    rw [largest,List.map_cons,List.foldr_cons]
    rcases List.mem_cons.mp h with rfl | h
    · exact Nat.le_max_left _ _
    · exact Nat.le_trans (ih h) (Nat.le_max_right _ _)

theorem largest_mem {rs : List (UInt64 × UInt64)} (h : 0 < largest rs) :
    ∃ r ∈ rs, r.1.toNat = largest rs := by
  induction rs with
  | nil => exact absurd h (Nat.lt_irrefl 0)
  | cons q rs ih =>
    have hmax : largest (q :: rs) = max q.1.toNat (largest rs) := rfl
    rcases Nat.le_total (largest rs) q.1.toNat with hle | hle
    · exact ⟨q,by simp,by rw [hmax,Nat.max_eq_left hle]⟩
    · rw [hmax,Nat.max_eq_right hle] at h ⊢
      obtain ⟨r,hr,heq⟩ := ih h
      exact ⟨r,by simp [hr],heq⟩

theorem Placed.blockCount_eq {r : ArenaRun} (h : r.Placed) :
    r.blockCount = r.arena.back.2.length+1 := by
  rw [blockCount,ArenaAllocator.blockCount,h.blocks_eq,List.length_cons]

theorem Placed.step_room {r : ArenaRun} (h : r.Placed) {size alignment : UInt64}
    (hadmitted : r.arena.Admitted size alignment)
    (hroom : r.arena.HasRoom size alignment) :
    ∃ t, t.Placed ∧ ArenaRun.step 2 (.allocate size alignment) r = some t ∧
      t.arena.blockSize = r.arena.blockSize ∧ t.blockCount = r.blockCount ∧
      t.capacity = r.capacity ∧ t.offset = alignUp r.offset alignment.toNat+size.toNat := by
  refine ⟨_,h.filled hadmitted hroom,?_,rfl,?_,rfl,hadmitted.toNat_end.2⟩
  · rw [step_allocate hadmitted,if_pos hroom]
  · rw [h.blockCount_eq]
    rfl

theorem Placed.step_no_room {r : ArenaRun} (h : r.Placed) {size alignment : UInt64}
    (hadmitted : r.arena.Admitted size alignment)
    (hroom : ¬ r.arena.HasRoom size alignment) :
    ∃ t, t.Placed ∧ ArenaRun.step 2 (.allocate size alignment) r = some t ∧
      t.arena.blockSize = r.arena.blockSize ∧ t.blockCount = r.blockCount+1 ∧
      t.capacity = max r.arena.blockSize.toNat size.toNat ∧ t.offset = size.toNat := by
  refine ⟨_,h.extended size alignment,?_,rfl,?_,toNat_max _ _,rfl⟩
  · rw [step_allocate hadmitted,if_neg hroom]
  · rw [h.blockCount_eq]
    rfl

theorem Placed.alignment_pos {r : ArenaRun} (h : r.Placed) {rs : List (UInt64 × UInt64)}
    (hcalls : Runs.AlongMoves (ArenaRun.step 2) Admitted r (requests rs)) :
    ∀ q ∈ numbers rs, 0 < q.2 := by
  induction rs generalizing r with
  | nil => simp [numbers]
  | cons q rs ih =>
    obtain ⟨u,hu,hstep⟩ := h.step hcalls.head
    have hadmitted : r.arena.Admitted q.1 q.2 := hcalls.head
    intro p hp
    rcases List.mem_cons.mp hp with rfl | hp
    · exact hadmitted.alignment_pos
    · exact ih hu (hcalls.tail (hstep 0)) p hp

/-- What becomes of the last block. If the requests fit into it, it is still the last and
filled up to their end; if not, there are more blocks than before, and the last one is as
large as one of the requests asked for. -/
structure Served (r : ArenaRun) (rs : List (UInt64 × UInt64)) (t : ArenaRun) : Prop where
  blockSize : t.arena.blockSize = r.arena.blockSize
  count_le : r.blockCount ≤ t.blockCount
  fits : extent r.offset (numbers rs) ≤ r.capacity → t.blockCount = r.blockCount ∧
    t.capacity = r.capacity ∧ t.offset = extent r.offset (numbers rs)
  grows : r.capacity < extent r.offset (numbers rs) → r.blockCount < t.blockCount
  capacity : t.capacity = r.capacity ∨
    ∃ q ∈ rs, t.capacity = max r.arena.blockSize.toNat q.1.toNat

theorem Placed.served {r : ArenaRun} (h : r.Placed) (hle : r.offset ≤ r.capacity)
    {rs : List (UInt64 × UInt64)}
    (hcalls : Runs.AlongMoves (ArenaRun.step 2) Admitted r (requests rs)) :
    ∃ t, t.Placed ∧ Runs.Moves (ArenaRun.step 2) r (requests rs) t ∧ Served r rs t := by
  induction rs generalizing r with
  | nil =>
    refine ⟨r,h,Runs.moves_nil.mpr rfl,rfl,le_rfl,fun _ => ⟨rfl,rfl,rfl⟩,?_,Or.inl rfl⟩
    intro hover
    exact absurd hle (Nat.not_le.mpr hover)
  | cons q rs ih =>
    have hadmitted : r.arena.Admitted q.1 q.2 := hcalls.head
    have hextent : extent r.offset (numbers (q :: rs)) =
        extent (alignUp r.offset q.2.toNat+q.1.toNat) (numbers rs) := rfl
    by_cases hroom : alignUp r.offset q.2.toNat+q.1.toNat ≤ r.capacity
    · obtain ⟨u,hu,hstep,hsize,hcount,hcapacity,hoffset⟩ := h.step_room hadmitted hroom
      obtain ⟨t,ht,hmoves,hserved⟩ := ih hu (by omega) (hcalls.tail hstep)
      have hgrows := hserved.grows
      have hfits := hserved.fits
      have hlast := hserved.capacity
      rw [hoffset,hcapacity,hcount] at hfits
      rw [hoffset,hcapacity,hcount] at hgrows
      rw [hcapacity,hsize] at hlast
      refine ⟨t,ht,Runs.moves_cons.mpr ⟨u,hstep,hmoves⟩,hserved.blockSize.trans hsize,
        hcount ▸ hserved.count_le,by rwa [hextent],by rwa [hextent],?_⟩
      rcases hlast with hlast | ⟨p,hp,hlast⟩
      · exact Or.inl hlast
      · exact Or.inr ⟨p,by simp [hp],hlast⟩
    · obtain ⟨u,hu,hstep,hsize,hcount,hcapacity,hoffset⟩ := h.step_no_room hadmitted hroom
      obtain ⟨t,ht,hmoves,hserved⟩ := ih hu (by omega) (hcalls.tail hstep)
      have hcount_le := hserved.count_le
      have hend := le_extent (hu.alignment_pos (hcalls.tail hstep))
        (alignUp r.offset q.2.toNat+q.1.toNat)
      refine ⟨t,ht,Runs.moves_cons.mpr ⟨u,hstep,hmoves⟩,hserved.blockSize.trans hsize,
        by omega,fun hfits => ?_,fun _ => by omega,?_⟩
      · rw [hextent] at hfits
        omega
      · rcases hserved.capacity with hlast | ⟨p,hp,hlast⟩
        · exact Or.inr ⟨q,by simp,hlast.trans hcapacity⟩
        · exact Or.inr ⟨p,by simp [hp],hsize ▸ hlast⟩

theorem capacity_of_single {blockSize : UInt64} {rs qs : List (UInt64 × UInt64)}
    {p : UInt64 × UInt64} {t : ArenaRun}
    (hcalls : Runs.AlongMoves (step 2) Admitted (start blockSize) (requests (rs ++ p :: qs)))
    (hmoves : Runs.Moves (step 2) (start blockSize) (requests (rs ++ p :: qs)) t)
    (hbig : blockSize.toNat < p.1.toNat)
    (hextent : extent 0 (numbers (rs ++ p :: qs)) ≤ p.1.toNat) : t.capacity = p.1.toNat := by
  have hstart := placed_start blockSize
  have hall := hstart.alignment_pos hcalls
  rw [requests_append] at hcalls hmoves
  rw [numbers_append] at hextent hall
  obtain ⟨hbefore,hrest⟩ := Runs.alongMoves_append.mp hcalls
  obtain ⟨hzero,hafter⟩ := extent_le_size (hall (p.1.toNat,p.2.toNat) (by simp))
    (fun q hq => hall q (List.mem_append_right _ (List.mem_cons_of_mem _ hq))) hextent
  -- nothing is taken of the first block before the request
  obtain ⟨u,hu,humoves,huserved⟩ := hstart.served (Nat.zero_le _) hbefore
  obtain ⟨-,hucapacity,huoffset⟩ := huserved.fits (by rw [offset_start,hzero]; exact Nat.zero_le _)
  rw [offset_start,hzero] at huoffset
  rw [capacity_start] at hucapacity
  -- it opens a block that it fills
  have hadmitted : u.arena.Admitted p.1 p.2 := (hrest u humoves).head
  have hroom : ¬ u.arena.HasRoom p.1 p.2 := by
    intro hroom
    have hle : alignUp u.offset p.2.toNat+p.1.toNat ≤ u.capacity := hroom
    rw [huoffset,alignUp_zero,hucapacity] at hle
    omega
  obtain ⟨v,hv,hstep,hvsize,-,hvcapacity,hvoffset⟩ := hu.step_no_room hadmitted hroom
  rw [huserved.blockSize,blockSize_start,Nat.max_eq_right (Nat.le_of_lt hbig)] at hvcapacity
  -- and what follows takes nothing
  obtain ⟨w,-,hwmoves,hwserved⟩ := hv.served (by omega) ((hrest u humoves).tail hstep)
  obtain ⟨-,hwcapacity,-⟩ := hwserved.fits (by rw [hvoffset,hvcapacity]; exact hafter)
  have heq : t = w := Runs.Moves.eq hmoves
    (Runs.moves_append.mpr ⟨u,humoves,Runs.moves_cons.mpr ⟨v,hstep,hwmoves⟩⟩)
  rw [heq,hwcapacity,hvcapacity]

theorem fits_first_capacity_iff {blockSize : UInt64} {rs : List (UInt64 × UInt64)} {t : ArenaRun}
    (hcalls : Runs.AlongMoves (step 2) Admitted (start blockSize) (requests rs))
    (hmoves : Runs.Moves (step 2) (start blockSize) (requests rs) t) :
    extent 0 (numbers rs) ≤ t.capacity ↔
      extent 0 (numbers rs) ≤ max blockSize.toNat (largest rs) := by
  obtain ⟨u,-,humoves,hserved⟩ := (placed_start blockSize).served (Nat.zero_le _) hcalls
  cases Runs.Moves.eq hmoves humoves
  have hfits := hserved.fits
  have hlast := hserved.capacity
  simp only [offset_start,capacity_start,blockSize_start] at hfits hlast
  constructor
  · intro h
    rcases hlast with hlast | ⟨q,hq,hlast⟩
    · omega
    · have hle := le_largest hq
      omega
  · intro h
    by_cases hfirst : extent 0 (numbers rs) ≤ blockSize.toNat
    · rw [(hfits hfirst).2.1]
      exact hfirst
    · obtain ⟨p,hp,hlargest⟩ := @largest_mem rs (by omega)
      obtain ⟨before,after,rfl⟩ := List.append_of_mem hp
      rw [capacity_of_single hcalls hmoves (by omega) (by omega)]
      omega

theorem Placed.back_reset {r : ArenaRun} (h : r.Placed) : r.arena.reset.back =
    (⟨r.arena.back.1.size,0⟩,r.arena.back.2.map fun b => ⟨b.size,0⟩) := by
  unfold ArenaAllocator.reset
  rw [h.blocks_eq,List.map_cons]
  rfl

theorem Placed.after_reset {r : ArenaRun} (h : r.Placed) :
    offset ⟨r.arena.reset,[]⟩ = 0 ∧ capacity ⟨r.arena.reset,[]⟩ = r.capacity ∧
      blockCount ⟨r.arena.reset,[]⟩ = r.blockCount := by
  refine ⟨?_,?_,?_⟩
  · rw [offset,h.back_reset]
    rfl
  · rw [capacity,h.back_reset]
    rfl
  · simp [blockCount,ArenaAllocator.blockCount,ArenaAllocator.reset]

theorem Placed.along_of_fits {r s : ArenaRun} (hr : r.Placed) (hs : s.Placed)
    (hoffset : s.offset = r.offset) {rs : List (UInt64 × UInt64)}
    (hrfits : extent r.offset (numbers rs) ≤ r.capacity)
    (hsfits : extent r.offset (numbers rs) ≤ s.capacity)
    (hcalls : Runs.AlongMoves (ArenaRun.step 2) Admitted r (requests rs)) :
    Runs.AlongMoves (ArenaRun.step 2) Admitted s (requests rs) := by
  induction rs generalizing r s with
  | nil => trivial
  | cons q rs ih =>
    have hr_admitted : r.arena.Admitted q.1 q.2 := hcalls.head
    have hs_admitted : s.arena.Admitted q.1 q.2 := by
      refine ⟨hr_admitted.1,?_⟩
      have hsum := hr_admitted.2
      change s.offset+q.1.toNat+q.2.toNat < 2^64
      rw [hoffset]
      exact hsum
    have hpos := hr.alignment_pos hcalls
    have hend := le_extent (fun p hp => hpos p (List.mem_cons_of_mem _ hp))
      (alignUp r.offset q.2.toNat+q.1.toNat)
    have hr_room : alignUp r.offset q.2.toNat+q.1.toNat ≤ r.capacity := Nat.le_trans hend hrfits
    have hs_room : alignUp s.offset q.2.toNat+q.1.toNat ≤ s.capacity := by
      rw [hoffset]
      exact Nat.le_trans hend hsfits
    obtain ⟨u,hu,hr_step,-,-,hucapacity,huoffset⟩ := hr.step_room hr_admitted hr_room
    obtain ⟨v,hv,hs_step,-,-,hvcapacity,hvoffset⟩ := hs.step_room hs_admitted hs_room
    refine Runs.alongMoves_cons hs_step hs_admitted ?_
    refine ih hu hv ?_ ?_ ?_ (hcalls.tail hr_step)
    · rw [hvoffset,huoffset,hoffset]
    · rw [huoffset,hucapacity]
      exact hrfits
    · rw [huoffset,hvcapacity]
      exact hsfits

theorem Placed.again {r : ArenaRun} (h : r.Placed) {rs : List (UInt64 × UInt64)}
    (hfits : extent 0 (numbers rs) ≤ r.capacity)
    (hcalls : Runs.AlongMoves (ArenaRun.step 2) Admitted ⟨r.arena.reset,[]⟩ (requests rs)) :
    ∃ t, t.Placed ∧ Runs.Moves (ArenaRun.step 2) r (.reset :: requests rs) t ∧
      t.blockCount = r.blockCount ∧ t.capacity = r.capacity := by
  obtain ⟨hoffset,hcapacity,hcount⟩ := h.after_reset
  obtain ⟨t,ht,hmoves,hserved⟩ := h.reset.served (by omega) hcalls
  obtain ⟨htcount,htcapacity,-⟩ := hserved.fits (by rw [hoffset,hcapacity]; exact hfits)
  exact ⟨t,ht,Runs.moves_cons.mpr ⟨_,rfl,hmoves⟩,htcount.trans hcount,htcapacity.trans hcapacity⟩

theorem cycles_succ (n : Nat) (rs : List (UInt64 × UInt64)) :
    cycles (n+1) rs = cycles n rs ++ .reset :: requests rs := by
  simp [cycles,List.replicate_succ']

theorem Placed.cycles {r t : ArenaRun} (ht : t.Placed) {rs : List (UInt64 × UInt64)}
    (hmoves : Runs.Moves (ArenaRun.step 2) r (requests rs) t)
    (hfits : extent 0 (numbers rs) ≤ t.capacity)
    (hcalls : Runs.AlongMoves (ArenaRun.step 2) Admitted ⟨t.arena.reset,[]⟩ (requests rs))
    (n : Nat) :
    ∃ v, v.Placed ∧ Runs.Moves (ArenaRun.step 2) r (ArenaRun.cycles n rs) v ∧
      v.blockCount = t.blockCount ∧ v.capacity = t.capacity := by
  induction n with
  | zero => exact ⟨t,ht,by simpa [ArenaRun.cycles] using hmoves,rfl,rfl⟩
  | succ n ih =>
    obtain ⟨v,hv,hvmoves,hvcount,hvcapacity⟩ := ih
    obtain ⟨htoffset,htcapacity,-⟩ := ht.after_reset
    obtain ⟨hvoffset,hvcapacity',-⟩ := hv.after_reset
    have hagain := ht.reset.along_of_fits hv.reset (by rw [hvoffset,htoffset])
      (by rw [htoffset,htcapacity]; exact hfits)
      (by rw [htoffset,hvcapacity',hvcapacity]; exact hfits) hcalls
    obtain ⟨w,hw,hwmoves,hwcount,hwcapacity⟩ := hv.again (by rw [hvcapacity]; exact hfits) hagain
    refine ⟨w,hw,?_,hwcount.trans hvcount,hwcapacity.trans hvcapacity⟩
    rw [cycles_succ]
    exact Runs.moves_append.mpr ⟨v,hvmoves,hwmoves⟩

/-- Requests that are made again after a reset need no further block just when all of them,
laid out one after the other, fit into one block of the size the largest of them calls for.
Then any number of cycles gets by with the blocks of the first. -/
theorem reset_reuses_blocks_iff {blockSize : UInt64} {rs : List (UInt64 × UInt64)}
    (h : Runs.AlongMoves (step 2) Admitted (start blockSize)
      (requests rs ++ .reset :: requests rs)) :
    ∃ t u, Runs.Moves (step 2) (start blockSize) (requests rs) t ∧
      Runs.Moves (step 2) (start blockSize) (requests rs ++ .reset :: requests rs) u ∧
      (u.arena.blockCount = t.arena.blockCount ↔
        extent 0 (numbers rs) ≤ max blockSize.toNat (largest rs)) ∧
      (extent 0 (numbers rs) ≤ max blockSize.toNat (largest rs) →
        ∀ n, ∃ v, Runs.Moves (step 2) (start blockSize) (cycles n rs) v ∧
          v.arena.blockCount = t.arena.blockCount) := by
  obtain ⟨hfirst,hrest⟩ := Runs.alongMoves_append.mp h
  obtain ⟨t,ht,htmoves,-⟩ := (placed_start blockSize).served (Nat.zero_le _) hfirst
  have hsecond := (hrest t htmoves).tail rfl
  obtain ⟨hoffset,hcapacity,hcount⟩ := ht.after_reset
  obtain ⟨u,hu,humoves,huserved⟩ := ht.reset.served (by omega) hsecond
  have hcapacity_iff := fits_first_capacity_iff hfirst htmoves
  have hfits := huserved.fits
  have hgrows := huserved.grows
  rw [hoffset,hcapacity,hcount] at hfits hgrows
  refine ⟨t,u,htmoves,Runs.moves_append.mpr ⟨t,htmoves,Runs.moves_cons.mpr ⟨_,rfl,humoves⟩⟩,?_,?_⟩
  · rw [← hcapacity_iff]
    constructor
    · intro hsame
      by_contra hover
      exact absurd hsame (Nat.ne_of_gt (hgrows (Nat.not_le.mp hover)))
    · intro hle
      exact (hfits hle).1
  · intro hle n
    obtain ⟨v,-,hvmoves,hvcount,-⟩ := ht.cycles htmoves (hcapacity_iff.mpr hle) hsecond n
    exact ⟨v,hvmoves,hvcount⟩

/-- Five bytes and four, aligned, end at offset 12 of a block of 16. -/
theorem reset_reuses_blocks_iff_small :
    ∃ t u, Runs.Moves (step 2) (start 16) (requests [(5,8),(4,4)]) t ∧
      Runs.Moves (step 2) (start 16) (requests [(5,8),(4,4)] ++ .reset :: requests [(5,8),(4,4)]) u ∧
      u.arena.blockCount = t.arena.blockCount := by
  have hcalls : Runs.AlongMoves (step 2) Admitted (start 16)
      (requests [(5,8),(4,4)] ++ .reset :: requests [(5,8),(4,4)]) := by
    refine Runs.alongMoves_cons rfl ⟨⟨3,rfl⟩,by decide⟩ ?_
    refine Runs.alongMoves_cons rfl ⟨⟨2,rfl⟩,by decide⟩ ?_
    refine Runs.alongMoves_cons rfl trivial ?_
    refine Runs.alongMoves_cons rfl ⟨⟨3,rfl⟩,by decide⟩ ?_
    exact Runs.alongMoves_cons rfl ⟨⟨2,rfl⟩,by decide⟩ trivial
  obtain ⟨t,u,ht,hu,hiff,-⟩ := reset_reuses_blocks_iff hcalls
  exact ⟨t,u,ht,hu,hiff.mpr (by decide)⟩

/-- Two requests that fill a block each leave two blocks behind, and after the reset, where
only the last is looked at, the second of them opens a third. -/
theorem reset_leaves_blocks_behind :
    ¬ ∀ (blockSize : UInt64) (rs : List (UInt64 × UInt64)),
      Runs.AlongMoves (step 2) Admitted (start blockSize) (requests rs ++ .reset :: requests rs) →
      ∀ t u, Runs.Moves (step 2) (start blockSize) (requests rs) t →
        Runs.Moves (step 2) (start blockSize) (requests rs ++ .reset :: requests rs) u →
        u.arena.blockCount = t.arena.blockCount := by
  intro h
  have hcalls : Runs.AlongMoves (step 2) Admitted (start 16)
      (requests [(16,1),(16,1)] ++ .reset :: requests [(16,1),(16,1)]) := by
    refine Runs.alongMoves_cons rfl ⟨⟨0,rfl⟩,by decide⟩ ?_
    refine Runs.alongMoves_cons rfl ⟨⟨0,rfl⟩,by decide⟩ ?_
    refine Runs.alongMoves_cons rfl trivial ?_
    refine Runs.alongMoves_cons rfl ⟨⟨0,rfl⟩,by decide⟩ ?_
    exact Runs.alongMoves_cons rfl ⟨⟨0,rfl⟩,by decide⟩ trivial
  have hcount := h 16 [(16,1),(16,1)] hcalls _ _ (Runs.moves_iff_foldlM.mpr rfl)
    (Runs.moves_iff_foldlM.mpr rfl)
  exact absurd hcount (by decide)

end ArenaRun
end VoltDBX
