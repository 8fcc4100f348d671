import VoltDBX.PoolOwners
import VoltDBX.ThreadPool

/-!
`StringPool::copy` on several threads at once. The mutex of the buffer pool is held while a
block is taken and while it is given back; between them a copy goes through its block byte by
byte, beside the copies of the others.
-/

set_option autoImplicit false

namespace VoltDBX
open Regions

namespace BufferPool
variable {p : BufferPool}

def allocatedBlocks (p : BufferPool) : Nat := (p.slabs.map fun s => s.length/p.blockSize).sum

def freeBlocks (p : BufferPool) : Nat := p.freeList.length

theorem getElem?_splice {s source : Bytes} {off i : Nat} (hfits : off+source.length ≤ s.length)
    (hi : i < off ∨ off+source.length ≤ i) :
    (s.take off ++ source ++ s.drop (off+source.length))[i]? = s[i]? := by
  rcases hi with hi | hi
  · rw [List.append_assoc,List.getElem?_append_left (by rw [List.length_take]; omega),
      List.getElem?_take_of_lt hi]
  · have hlen : (s.take off ++ source).length = off+source.length := by
      rw [List.length_append,List.length_take]
      omega
    rw [List.getElem?_append_right (by omega),hlen,List.getElem?_drop]
    congr 1
    omega

theorem read_memcpy_apart {b c : Block} {source : Bytes} {n : Nat} (hb : p.Fits b source.length)
    (hapart : Apart (⟨b.slab,b.offset,source.length⟩ : Region Nat) ⟨c.slab,c.offset,n⟩) :
    (p.memcpy b source).read c n = p.read c n := by
  by_cases hslab : b.slab = c.slab
  · have hrange : b.offset+source.length ≤ c.offset ∨ c.offset+n ≤ b.offset := by
      rcases hapart with hspace | hend | hend
      · exact absurd hslab hspace
      · exact Or.inl hend
      · exact Or.inr hend
    obtain ⟨hend,hlt⟩ := hb
    simp only [read,memcpy,List.getD_eq_getElem?_getD,List.getElem?_modify,hslab,if_true] at hend ⊢
    rw [hslab] at hlt
    rw [List.getElem?_eq_getElem hlt] at hend ⊢
    simp only [Option.map_eq_map,Option.map_some,Option.getD_some] at hend ⊢
    refine List.ext_getElem? fun i => ?_
    rw [List.getElem?_take,List.getElem?_take]
    split
    · rename_i hi
      rw [List.getElem?_drop,List.getElem?_drop]
      exact getElem?_splice hend (by omega)
    · rfl
  · simp only [read,memcpy,List.getD_eq_getElem?_getD,List.getElem?_modify,hslab,if_false]
    simp

theorem read_add (b : Block) (m n : Nat) :
    p.read b (m+n) = p.read b m ++ p.read ⟨b.slab,b.offset+m⟩ n := by
  simp only [read,List.take_add,List.drop_drop]

theorem read_take (b : Block) {m n : Nat} (h : m ≤ n) : (p.read b n).take m = p.read b m := by
  rw [read,read,List.take_take,Nat.min_eq_left h]

theorem read_acquire {b : Block} (hslab : b.slab < p.slabs.length) (n minSize : Nat) :
    (p.acquire minSize).2.read b n = p.read b n := by
  have happend : ∀ (free : List Block) (s : Bytes),
      (⟨p.blockSize,free,p.slabs ++ [s]⟩ : BufferPool).read b n = p.read b n := by
    intro free s
    simp only [read]
    rw [List.getD_append _ _ _ _ hslab]
  unfold acquire
  split
  · exact happend _ _
  · unfold refill
    split
    · exact happend _ _
    · rfl

end BufferPool

/-- A copy under way: `memcpy` has written `done` bytes of the source, or the new string has
read `result`. -/
inductive Copying where
  | writing (source : Bytes) (block : Block) (done : Nat)
  | reading (source : Bytes) (block : Block) (result : Bytes)
  deriving DecidableEq, Repr

namespace Copying

def lease : Copying → PoolOwners.Lease
  | .writing source block _ => ⟨block,source.length⟩
  | .reading source block _ => ⟨block,source.length⟩

def leases : Option Copying → List PoolOwners.Lease
  | none => []
  | some job => [job.lease]

def Holds (p : BufferPool) : Copying → Prop
  | .writing source block done => done ≤ source.length ∧ p.read block done = source.take done
  | .reading source block result =>
    p.read block source.length = source ∧ result = source.take result.length

end Copying

/-- `jobs` has a place for every client. The counter `copies_` is left out. -/
structure CopyClients where
  owners : PoolOwners
  jobs : List (Option Copying)
  results : List (Bytes × Bytes)
  deriving DecidableEq, Repr

namespace CopyClients

inductive Step where
  | begin (c : Nat) (source : Bytes)
  | put (c : Nat)
  | turn (c : Nat)
  | get (c : Nat)
  | finish (c : Nat)
  deriving DecidableEq, Repr

def start (clients blockSize initialBlocks : Nat) : CopyClients :=
  ⟨PoolOwners.start blockSize initialBlocks,List.replicate clients none,[]⟩

/-- A source larger than a block is copied without the pool. -/
def step : Step → CopyClients → Option CopyClients
  | .begin c source, s =>
    match s.jobs[c]? with
    | some none =>
      if source.length ≤ s.owners.pool.blockSize then
        (PoolOwners.step (.acquire source.length) s.owners).map fun owners =>
          ⟨owners,s.jobs.set c (some (.writing source (s.owners.pool.acquire source.length).1 0)),
            s.results⟩
      else some ⟨s.owners,s.jobs,s.results ++ [(source,source)]⟩
    | _ => none
  | .put c, s =>
    match s.jobs[c]? with
    | some (some (.writing source block done)) =>
      source[done]?.map fun x =>
        ⟨{ s.owners with pool := s.owners.pool.memcpy ⟨block.slab,block.offset+done⟩ [x] },
          s.jobs.set c (some (.writing source block (done+1))),s.results⟩
    | _ => none
  | .turn c, s =>
    match s.jobs[c]? with
    | some (some (.writing source block done)) =>
      if done = source.length then
        some ⟨s.owners,s.jobs.set c (some (.reading source block [])),s.results⟩
      else none
    | _ => none
  | .get c, s =>
    match s.jobs[c]? with
    | some (some (.reading source block result)) =>
      if result.length < source.length then
        some ⟨s.owners,s.jobs.set c (some (.reading source block
          (result ++ s.owners.pool.read ⟨block.slab,block.offset+result.length⟩ 1))),s.results⟩
      else none
    | _ => none
  | .finish c, s =>
    match s.jobs[c]? with
    | some (some (.reading source block result)) =>
      if result.length = source.length then
        (PoolOwners.step (.release (some block)) s.owners).map fun owners =>
          ⟨owners,s.jobs.set c none,s.results ++ [(source,result)]⟩
      else none
    | _ => none

section
variable {s t : CopyClients} {c : Nat}

theorem step_begin {source : Bytes} (h : step (.begin c source) s = some t) :
    s.jobs[c]? = some none ∧
      ((source.length ≤ s.owners.pool.blockSize ∧
        ∃ owners, PoolOwners.step (.acquire source.length) s.owners = some owners ∧
          t = ⟨owners,s.jobs.set c (some (.writing source (s.owners.pool.acquire source.length).1 0)),
            s.results⟩) ∨
        t = ⟨s.owners,s.jobs,s.results ++ [(source,source)]⟩) := by
  simp only [step] at h
  split at h
  · rename_i hjob
    split at h
    · rename_i hsize
      obtain ⟨owners,howners,rfl⟩ := Option.map_eq_some_iff.mp h
      exact ⟨hjob,Or.inl ⟨hsize,owners,howners,rfl⟩⟩
    · exact ⟨hjob,Or.inr (Option.some.inj h).symm⟩
  · cases h

theorem step_put (h : step (.put c) s = some t) :
    ∃ source block done x, s.jobs[c]? = some (some (.writing source block done)) ∧
      source[done]? = some x ∧
      t = ⟨{ s.owners with pool := s.owners.pool.memcpy ⟨block.slab,block.offset+done⟩ [x] },
        s.jobs.set c (some (.writing source block (done+1))),s.results⟩ := by
  simp only [step] at h
  split at h
  · rename_i source block done hjob
    obtain ⟨x,hx,rfl⟩ := Option.map_eq_some_iff.mp h
    exact ⟨source,block,done,x,hjob,hx,rfl⟩
  · cases h

theorem step_turn (h : step (.turn c) s = some t) :
    ∃ source block, s.jobs[c]? = some (some (.writing source block source.length)) ∧
      t = ⟨s.owners,s.jobs.set c (some (.reading source block [])),s.results⟩ := by
  simp only [step] at h
  split at h
  · rename_i source block done hjob
    split at h
    · rename_i hdone
      subst hdone
      exact ⟨source,block,hjob,(Option.some.inj h).symm⟩
    · cases h
  · cases h

theorem step_get (h : step (.get c) s = some t) :
    ∃ source block result, s.jobs[c]? = some (some (.reading source block result)) ∧
      result.length < source.length ∧
      t = ⟨s.owners,s.jobs.set c (some (.reading source block
        (result ++ s.owners.pool.read ⟨block.slab,block.offset+result.length⟩ 1))),s.results⟩ := by
  simp only [step] at h
  split at h
  · rename_i source block result hjob
    split at h
    · rename_i hless
      exact ⟨source,block,result,hjob,hless,(Option.some.inj h).symm⟩
    · cases h
  · cases h

theorem step_finish (h : step (.finish c) s = some t) :
    ∃ source block result owners, s.jobs[c]? = some (some (.reading source block result)) ∧
      result.length = source.length ∧
      PoolOwners.step (.release (some block)) s.owners = some owners ∧
      t = ⟨owners,s.jobs.set c none,s.results ++ [(source,result)]⟩ := by
  simp only [step] at h
  split at h
  · rename_i source block result hjob
    split at h
    · rename_i hdone
      obtain ⟨owners,howners,rfl⟩ := Option.map_eq_some_iff.mp h
      exact ⟨source,block,result,owners,hjob,hdone,howners,rfl⟩
    · cases h
  · cases h

end

structure Sound (blockSize : Nat) (s : CopyClients) : Prop where
  kept : PoolOwners.Kept blockSize s.owners
  held : s.owners.held.Perm (s.jobs.flatMap Copying.leases)
  small : ∀ (c : Nat) (job : Copying), s.jobs[c]? = some (some job) → job.lease.minSize ≤ blockSize
  bytes : ∀ (c : Nat) (job : Copying), s.jobs[c]? = some (some job) → job.Holds s.owners.pool
  exact : ∀ x ∈ s.results, x.2 = x.1
  counted : s.owners.pool.freeBlocks+s.owners.held.length = s.owners.pool.allocatedBlocks

theorem flatMap_leases_none (n : Nat) : (List.replicate n none).flatMap Copying.leases = [] := by
  rw [List.flatMap_eq_nil_iff]
  intro job hjob
  rw [List.eq_of_mem_replicate hjob]
  rfl

theorem length_pushBlocks (blockSize slab count : Nat) :
    (BufferPool.pushBlocks blockSize slab count []).length = count := by
  induction count with
  | zero => rfl
  | succ count ih =>
    rw [BufferPool.pushBlocks,List.range_succ,List.foldl_append,List.foldl_cons,List.foldl_nil,
      List.length_cons]
    exact congrArg (·+1) ih

theorem sound_start (clients : Nat) {blockSize initialBlocks : Nat} (hpos : 0 < blockSize)
    (hinitial : initialBlocks*blockSize < 2^64) :
    (start clients blockSize initialBlocks).Sound blockSize := by
  have hnone : ∀ (c : Nat) (job : Copying), (start clients blockSize initialBlocks).jobs[c]? = some (some job) →
      False := by
    intro c job hjob
    cases List.eq_of_mem_replicate (List.mem_of_getElem? hjob)
  refine ⟨PoolOwners.kept_start hinitial,?_,fun c job hjob => (hnone c job hjob).elim,
    fun c job hjob => (hnone c job hjob).elim,?_,?_⟩
  · rw [start,flatMap_leases_none]
    exact List.Perm.refl []
  · intro x hx
    cases hx
  · simp only [start,PoolOwners.start,BufferPool.create,BufferPool.freeBlocks,
      BufferPool.allocatedBlocks,length_pushBlocks,List.length_nil,List.map_cons,List.map_nil,
      List.length_replicate,List.sum_cons,List.sum_nil,Nat.mod_eq_of_lt hinitial,
      Nat.mul_div_cancel _ hpos]

variable {blockSize : Nat} {s t : CopyClients}

theorem Sound.mem_held (h : s.Sound blockSize) {c : Nat} {job : Copying}
    (hjob : s.jobs[c]? = some (some job)) : job.lease ∈ s.owners.held :=
  h.held.mem_iff.mpr (List.mem_flatMap.mpr ⟨some job,List.mem_of_getElem? hjob,by
    simp [Copying.leases]⟩)

theorem Sound.held_apart (h : s.Sound blockSize) : s.owners.held.Pairwise fun l l' =>
    Apart (l.region blockSize) (l'.region blockSize) := by
  have hall := (List.pairwise_append.mp h.kept.sideBySide.apart).2.1
  rw [h.kept.size] at hall
  exact hall

theorem Sound.apart (h : s.Sound blockSize) {c d : Nat} {job other : Copying}
    (hjob : s.jobs[c]? = some (some job)) (hother : s.jobs[d]? = some (some other))
    (hne : c ≠ d) : Apart (job.lease.region blockSize) (other.lease.region blockSize) := by
  have hjobs := (List.pairwise_flatMap.mp
    ((h.held.pairwise_iff fun hab => hab.symm).mp h.held_apart)).2
  obtain ⟨hc,hcjob⟩ := List.getElem?_eq_some_iff.mp hjob
  obtain ⟨hd,hdjob⟩ := List.getElem?_eq_some_iff.mp hother
  have hpairs := List.pairwise_iff_getElem.mp hjobs
  rcases Nat.lt_or_gt_of_ne hne with hlt | hgt
  · have hall := hpairs c d hc hd hlt
    rw [hcjob,hdjob] at hall
    exact hall _ (by simp [Copying.leases]) _ (by simp [Copying.leases])
  · have hall := hpairs d c hd hc hgt
    rw [hcjob,hdjob] at hall
    exact (hall _ (by simp [Copying.leases]) _ (by simp [Copying.leases])).symm

theorem Sound.fits (h : s.Sound blockSize) {c : Nat} {job : Copying}
    (hjob : s.jobs[c]? = some (some job)) :
    s.owners.pool.Fits job.lease.block job.lease.minSize := by
  obtain ⟨hend,hslab⟩ := h.kept.sideBySide.inside job.lease
    (List.mem_append_right _ (h.mem_held hjob))
  exact ⟨by omega,hslab⟩

theorem perm_set {c : Nat} {job job' : Copying} (hjob : s.jobs[c]? = some (some job))
    (hlease : job'.lease = job.lease) :
    (s.jobs.flatMap Copying.leases).Perm ((s.jobs.set c (some job')).flatMap Copying.leases) := by
  have hperm := ThreadPool.flatMap_set_perm Copying.leases hjob (some job')
  simp only [Copying.leases,hlease,List.singleton_append] at hperm
  exact (List.Perm.cons_inv hperm).symm

theorem getElem?_set_cases {jobs : List (Option Copying)} {c d : Nat} {new : Option Copying}
    {job : Copying} (h : (jobs.set c new)[d]? = some (some job)) :
    (c = d ∧ new = some job) ∨ (c ≠ d ∧ jobs[d]? = some (some job)) := by
  by_cases hcd : c = d
  · subst hcd
    rw [List.getElem?_set_self'] at h
    cases hc : jobs[c]? with
    | none => simp [hc] at h
    | some old =>
      rw [hc] at h
      exact Or.inl ⟨rfl,by simpa using h⟩
  · rw [List.getElem?_set_ne hcd] at h
    exact Or.inr ⟨hcd,h⟩

theorem allocatedBlocks_memcpy {p : BufferPool} {b : Block} {source : Bytes}
    (hb : p.Fits b source.length) :
    (p.memcpy b source).allocatedBlocks = p.allocatedBlocks := by
  have hlengths : (p.memcpy b source).slabs.map List.length = p.slabs.map List.length := by
    refine List.ext_getElem? fun i => ?_
    simp only [BufferPool.memcpy,List.getElem?_map,List.getElem?_modify]
    by_cases hi : b.slab = i
    · subst hi
      obtain ⟨hend,hlt⟩ := hb
      rw [List.getD_eq_getElem?_getD,List.getElem?_eq_getElem hlt,Option.getD_some] at hend
      rw [List.getElem?_eq_getElem hlt]
      simp only [if_true,Option.map_eq_map,Option.map_some,BufferPool.length_memcpy hend]
    · simp [hi]
  have hsum := congrArg (fun l => (l.map fun n => n/p.blockSize).sum) hlengths
  simp only [List.map_map] at hsum
  exact hsum

theorem kept_memcpy {o : PoolOwners} {b : Block} {source : Bytes} (h : o.Kept blockSize)
    (hb : o.pool.Fits b source.length) :
    PoolOwners.Kept blockSize { o with pool := o.pool.memcpy b source } :=
  ⟨h.size,fun l hl => hb.memcpy (h.sideBySide.inside l hl),h.sideBySide.apart⟩

theorem Sound.replace (h : s.Sound blockSize) {c : Nat} {job job' : Copying} {pool : BufferPool}
    (hjob : s.jobs[c]? = some (some job)) (hlease : job'.lease = job.lease)
    (hkept : PoolOwners.Kept blockSize ⟨pool,s.owners.held⟩)
    (hcounted : pool.freeBlocks = s.owners.pool.freeBlocks ∧
      pool.allocatedBlocks = s.owners.pool.allocatedBlocks)
    (hnew : job'.Holds pool)
    (hothers : ∀ d other, c ≠ d → s.jobs[d]? = some (some other) → other.Holds pool) :
    Sound blockSize ⟨⟨pool,s.owners.held⟩,s.jobs.set c (some job'),s.results⟩ := by
  refine ⟨hkept,h.held.trans (perm_set hjob hlease),?_,?_,h.exact,?_⟩
  · intro d other hother
    rcases getElem?_set_cases hother with ⟨-,hsame⟩ | ⟨-,hold⟩
    · cases hsame
      rw [hlease]
      exact h.small c job hjob
    · exact h.small d other hold
  · intro d other hother
    rcases getElem?_set_cases hother with ⟨-,hsame⟩ | ⟨hne,hold⟩
    · cases hsame
      exact hnew
    · exact hothers d other hne hold
  · rw [hcounted.1,hcounted.2]
    exact h.counted

theorem Sound.put (h : s.Sound blockSize) {c : Nat} (hstep : step (.put c) s = some t) :
    t.Sound blockSize := by
  obtain ⟨source,block,done,x,hjob,hx,rfl⟩ := step_put hstep
  have hlt := (List.getElem?_eq_some_iff.mp hx).1
  obtain ⟨hend,hslab⟩ := h.fits hjob
  obtain ⟨hdone,hread⟩ := h.bytes c _ hjob
  simp only [Copying.lease] at hend hslab
  have hfits : s.owners.pool.Fits ⟨block.slab,block.offset+done⟩ [x].length := by
    refine ⟨?_,hslab⟩
    simp only [List.length_singleton]
    omega
  refine h.replace hjob rfl (kept_memcpy h.kept hfits) ⟨rfl,allocatedBlocks_memcpy hfits⟩ ?_ ?_
  · -- the byte comes right after those that were written before
    refine ⟨hlt,?_⟩
    have hbefore : (s.owners.pool.memcpy ⟨block.slab,block.offset+done⟩ [x]).read block done =
        s.owners.pool.read block done :=
      BufferPool.read_memcpy_apart hfits (Or.inr (Or.inr (Nat.le_refl _)))
    have hbyte := hfits.read_memcpy
    rw [List.length_singleton] at hbyte
    rw [BufferPool.read_add,hbefore,hread,hbyte,List.take_add_one,hx]
    rfl
  · intro d other hne hother
    have hapart := h.apart hjob hother hne
    have hkeep : ∀ n, n ≤ other.lease.minSize →
        (s.owners.pool.memcpy ⟨block.slab,block.offset+done⟩ [x]).read other.lease.block n =
          s.owners.pool.read other.lease.block n := by
      intro n hn
      refine BufferPool.read_memcpy_apart hfits ?_
      have hend' : block.offset+done+[x].length ≤ block.offset+max blockSize source.length := by
        rw [List.length_singleton]
        omega
      have hpart : Apart (⟨block.slab,block.offset+done,[x].length⟩ : Region Nat)
          (other.lease.region blockSize) := hapart.within rfl (Nat.le_add_right _ _) hend'
      have hother : Apart (⟨other.lease.block.slab,other.lease.block.offset,n⟩ : Region Nat)
          ⟨block.slab,block.offset+done,[x].length⟩ :=
        hpart.symm.shrink rfl rfl (hn.trans (Nat.le_max_right _ _))
      exact hother.symm
    have hold := h.bytes d other hother
    cases other with
    | writing source' block' done' =>
      exact ⟨hold.1,(hkeep done' hold.1).trans hold.2⟩
    | reading source' block' result =>
      exact ⟨(hkeep source'.length (Nat.le_refl _)).trans hold.1,hold.2⟩

theorem Sound.turn (h : s.Sound blockSize) {c : Nat} (hstep : step (.turn c) s = some t) :
    t.Sound blockSize := by
  obtain ⟨source,block,hjob,rfl⟩ := step_turn hstep
  obtain ⟨-,hread⟩ := h.bytes c _ hjob
  refine h.replace hjob rfl h.kept ⟨rfl,rfl⟩ ⟨?_,rfl⟩ fun d other _ => h.bytes d other
  rw [hread,List.take_length]

theorem Sound.get (h : s.Sound blockSize) {c : Nat} (hstep : step (.get c) s = some t) :
    t.Sound blockSize := by
  obtain ⟨source,block,result,hjob,hless,rfl⟩ := step_get hstep
  obtain ⟨hread,hresult⟩ := h.bytes c _ hjob
  have hnext : result ++ s.owners.pool.read ⟨block.slab,block.offset+result.length⟩ 1 =
      source.take (result.length+1) := by
    have hbefore : s.owners.pool.read block result.length = result := by
      rw [← BufferPool.read_take block (Nat.le_of_lt hless),hread,← hresult]
    have hafter := @BufferPool.read_add s.owners.pool block result.length 1
    rw [hbefore] at hafter
    rw [← hafter,← BufferPool.read_take block hless,hread]
  refine h.replace hjob rfl h.kept ⟨rfl,rfl⟩ ⟨hread,?_⟩ fun d other _ => h.bytes d other
  have hlength : (source.take (result.length+1)).length = result.length+1 := by
    rw [List.length_take]
    omega
  rw [hnext,hlength]

theorem acquire_counted {p : BufferPool} (hpos : 0 < p.blockSize)
    (hbounded : p.blockSize*64 < 2^64) {n : Nat} (hn : n ≤ p.blockSize) :
    (p.freeList ≠ [] ∧ (p.acquire n).2.freeBlocks+1 = p.freeBlocks ∧
      (p.acquire n).2.allocatedBlocks = p.allocatedBlocks) ∨
    (p.freeList = [] ∧ (p.acquire n).2.freeBlocks = 63 ∧
      (p.acquire n).2.allocatedBlocks = p.allocatedBlocks+64) := by
  have hnot : ¬ p.blockSize < n := by omega
  by_cases hempty : p.freeList = []
  · refine Or.inr ⟨hempty,?_,?_⟩
    · simp only [BufferPool.acquire,hnot,if_false,BufferPool.refill_eq_of_empty hempty,
        BufferPool.freeBlocks,List.length_tail,length_pushBlocks]
    · simp only [BufferPool.acquire,hnot,if_false,BufferPool.refill_eq_of_empty hempty,
        BufferPool.allocatedBlocks,List.map_append,List.sum_append,List.map_cons,List.map_nil,
        List.sum_cons,List.sum_nil,List.length_replicate,Nat.mod_eq_of_lt hbounded,
        Nat.mul_div_cancel_left _ hpos,Nat.add_zero]
  · refine Or.inl ⟨hempty,?_,?_⟩
    · obtain ⟨b,free,hfree⟩ := List.exists_cons_of_ne_nil hempty
      simp only [BufferPool.acquire,hnot,if_false,BufferPool.refill_of_ne hempty,
        BufferPool.freeBlocks,hfree,List.tail_cons,List.length_cons]
    · simp only [BufferPool.acquire,hnot,if_false,BufferPool.refill_of_ne hempty,
        BufferPool.allocatedBlocks]

theorem Sound.begin (h : s.Sound blockSize) (hpos : 0 < blockSize)
    (hbounded : blockSize*64 < 2^64) {c : Nat} {source : Bytes}
    (hstep : step (.begin c source) s = some t) : t.Sound blockSize := by
  obtain ⟨hjob,⟨hsize,owners,howners,rfl⟩ | rfl⟩ := step_begin hstep
  · have hkept := h.kept.step hbounded howners
    cases howners
    have hperm := ThreadPool.flatMap_set_perm Copying.leases hjob
      (some (.writing source (s.owners.pool.acquire source.length).1 0))
    refine ⟨hkept,?_,?_,?_,h.exact,?_⟩
    · exact (h.held.cons _).trans hperm.symm
    · intro d other hother
      rcases getElem?_set_cases hother with ⟨-,hsame⟩ | ⟨-,hold⟩
      · cases hsame
        rw [h.kept.size] at hsize
        exact hsize
      · exact h.small d other hold
    · intro d other hother
      rcases getElem?_set_cases hother with ⟨-,hsame⟩ | ⟨-,hold⟩
      · cases hsame
        exact ⟨Nat.zero_le _,by simp [BufferPool.read]⟩
      · have hread := fun n => @BufferPool.read_acquire s.owners.pool _ (h.fits hold).2 n
          source.length
        have hbytes := h.bytes d other hold
        cases other with
        | writing source' block done => exact ⟨hbytes.1,(hread done).trans hbytes.2⟩
        | reading source' block result => exact ⟨(hread _).trans hbytes.1,hbytes.2⟩
    · have hcounted := h.counted
      rw [← h.kept.size] at hpos hbounded
      rcases acquire_counted hpos hbounded hsize with ⟨-,hfree,halloc⟩ | ⟨hempty,hfree,halloc⟩
      · simp only [List.length_cons]
        omega
      · have hzero : s.owners.pool.freeBlocks = 0 := by
          rw [BufferPool.freeBlocks,hempty,List.length_nil]
        simp only [List.length_cons]
        omega
  · refine ⟨h.kept,h.held,h.small,h.bytes,?_,h.counted⟩
    intro x hx
    rcases List.mem_append.mp hx with hx | hx
    · exact h.exact x hx
    · rw [List.mem_singleton.mp hx]

theorem Sound.eraseP_held (h : s.Sound blockSize) (hpos : 0 < blockSize) {c : Nat} {job : Copying}
    (hjob : s.jobs[c]? = some (some job)) :
    (job.lease :: s.owners.held.eraseP fun l => decide (l.block = job.lease.block)).Perm
      s.owners.held := by
  obtain ⟨m,before,after,-,hm,hheld,herase⟩ :=
    @List.exists_of_eraseP _ (fun l => decide (l.block = job.lease.block)) s.owners.held job.lease
      (h.mem_held hjob) (by simp)
  have hblock : m.block = job.lease.block := of_decide_eq_true hm
  have hsame : m = job.lease := by
    have hsymm : Std.Symm fun l l' : PoolOwners.Lease =>
        Apart (l.region blockSize) (l'.region blockSize) := ⟨fun _ _ hab => hab.symm⟩
    by_contra hne
    have hmem : m ∈ s.owners.held := by
      rw [hheld]
      simp
    rcases h.held_apart.forall hmem (h.mem_held hjob) hne with hspace | hend | hend
    · exact hspace (congrArg Block.slab hblock)
    · simp only [PoolOwners.Lease.region,hblock] at hend
      omega
    · simp only [PoolOwners.Lease.region,hblock] at hend
      omega
  rw [herase,hheld,← hsame]
  exact List.perm_middle.symm

theorem Sound.finish (h : s.Sound blockSize) (hpos : 0 < blockSize)
    (hbounded : blockSize*64 < 2^64) {c : Nat} (hstep : step (.finish c) s = some t) :
    t.Sound blockSize := by
  obtain ⟨source,block,result,owners,hjob,hdone,howners,rfl⟩ := step_finish hstep
  have hkept := h.kept.step hbounded howners
  have hmem : block ∈ s.owners.held.map PoolOwners.Lease.block :=
    List.mem_map.mpr ⟨_,h.mem_held hjob,rfl⟩
  rw [PoolOwners.step,if_pos hmem,Option.some.injEq] at howners
  subst howners
  have herase := h.eraseP_held hpos hjob
  have hperm := ThreadPool.flatMap_set_perm Copying.leases hjob none
  refine ⟨hkept,?_,?_,?_,?_,?_⟩
  · exact List.Perm.cons_inv ((herase.trans h.held).trans hperm.symm)
  · intro d other hother
    rcases getElem?_set_cases hother with ⟨-,hsame⟩ | ⟨-,hold⟩
    · cases hsame
    · exact h.small d other hold
  · intro d other hother
    rcases getElem?_set_cases hother with ⟨-,hsame⟩ | ⟨-,hold⟩
    · cases hsame
    · have hbytes := h.bytes d other hold
      cases other with
      | writing source' block' done => exact hbytes
      | reading source' block' result => exact hbytes
  · intro x hx
    rcases List.mem_append.mp hx with hx | hx
    · exact h.exact x hx
    · rw [List.mem_singleton.mp hx]
      obtain ⟨-,hresult⟩ := h.bytes c _ hjob
      rw [hdone,List.take_length] at hresult
      exact hresult
  · have hcounted := h.counted
    have hlength : (s.owners.held.eraseP fun l => decide (l.block = block)).length+1 =
        s.owners.held.length := herase.length_eq
    simp only [BufferPool.release,BufferPool.freeBlocks,BufferPool.allocatedBlocks,
      List.length_cons] at hcounted ⊢
    omega

theorem Sound.step {i : Step} (h : s.Sound blockSize) (hpos : 0 < blockSize)
    (hbounded : blockSize*64 < 2^64) (hstep : CopyClients.step i s = some t) :
    t.Sound blockSize := by
  cases i with
  | begin c source => exact h.begin hpos hbounded hstep
  | put c => exact h.put hstep
  | turn c => exact h.turn hstep
  | get c => exact h.get hstep
  | finish c => exact h.finish hpos hbounded hstep

theorem sound_moves {clients initialBlocks : Nat} (hpos : 0 < blockSize)
    (hbounded : blockSize*64 < 2^64) (hinitial : initialBlocks*blockSize < 2^64)
    {steps : List Step} (h : Runs.Moves step (start clients blockSize initialBlocks) steps s) :
    s.Sound blockSize :=
  Runs.moves_invariant (fun _ _ _ _ hu hmove => hu.step hpos hbounded hmove)
    (sound_start clients hpos hinitial) h

theorem length_leases (jobs : List (Option Copying)) :
    (jobs.flatMap Copying.leases).length = jobs.countP Option.isSome := by
  induction jobs with
  | nil => rfl
  | cons job jobs ih =>
    rw [List.flatMap_cons,List.length_append,ih]
    cases job with
    | none => simp [Copying.leases]
    | some job => simp [Copying.leases,Nat.add_comm]

theorem Sound.length_held (h : s.Sound blockSize) :
    s.owners.held.length = s.jobs.countP Option.isSome := by
  rw [h.held.length_eq,length_leases]

/-- However the copies of any number of clients are interleaved, byte by byte: every copy
that has been made has the bytes of its source, a copy under way works inside its slab and
apart from the others, and every block is either free, once, or held by one copy. -/
theorem copies_are_exact {clients blockSize initialBlocks : Nat} (hpos : 0 < blockSize)
    (hbounded : blockSize*64 < 2^64) (hinitial : initialBlocks*blockSize < 2^64)
    {steps : List Step} (hrun : Runs.Moves step (start clients blockSize initialBlocks) steps s) :
    (∀ x ∈ s.results, x.2 = x.1) ∧
    (∀ (c : Nat) (job : Copying), s.jobs[c]? = some (some job) →
      s.owners.pool.Fits job.lease.block job.lease.minSize ∧
      ∀ (d : Nat) (other : Copying), c ≠ d → s.jobs[d]? = some (some other) →
        Apart (job.lease.region blockSize) (other.lease.region blockSize)) ∧
    s.owners.pool.freeBlocks+s.jobs.countP Option.isSome = s.owners.pool.allocatedBlocks ∧
    s.owners.OneOwner ∧ s.owners.held.Perm (s.jobs.flatMap Copying.leases) := by
  have h := sound_moves hpos hbounded hinitial hrun
  refine ⟨h.exact,fun c job hjob => ⟨h.fits hjob,fun d other hne hother => ?_⟩,?_,
    h.kept.oneOwner hpos,h.held⟩
  · exact h.apart hjob hother hne
  · rw [← h.length_held]
    exact h.counted

/-- Two copies take the blocks of a pool of one and of its next slab, and write in turn. -/
theorem copies_are_exact_example :
    ∃ s, Runs.Moves step (start 2 4 1)
        ([Step.begin 0 (bytes "ab"),.begin 1 (bytes "xyz"),.put 0,.put 1,.put 1,.put 0,.turn 0,.put 1] ++
          [Step.turn 1,.get 1,.get 0,.get 0,.get 1,.finish 0,.get 1,.finish 1,.begin 0 (bytes "12345")])
        s ∧
      s.results = [(bytes "ab",bytes "ab"),(bytes "xyz",bytes "xyz"),(bytes "12345",bytes "12345")] ∧
      s.owners.pool.freeBlocks+s.jobs.countP Option.isSome = s.owners.pool.allocatedBlocks ∧
      s.owners.OneOwner := by
  have hend : (List.foldlM (fun u i => step i u) (start 2 4 1)
      ([Step.begin 0 (bytes "ab"),.begin 1 (bytes "xyz"),.put 0,.put 1,.put 1,.put 0,.turn 0,.put 1] ++
        [Step.turn 1,.get 1,.get 0,.get 0,.get 1,.finish 0,.get 1,.finish 1,.begin 0 (bytes "12345")])).map
      results =
      some [(bytes "ab",bytes "ab"),(bytes "xyz",bytes "xyz"),(bytes "12345",bytes "12345")] := by
    decide +kernel
  obtain ⟨s,hs,hresults⟩ := Option.map_eq_some_iff.mp hend
  have hrun := Runs.moves_iff_foldlM.mpr hs
  obtain ⟨-,-,hcount,howner,-⟩ := copies_are_exact (by decide) (by decide) (by decide) hrun
  exact ⟨s,hrun,hresults,hcount,howner⟩

theorem step_jobs {i : Step} (hstep : step i s = some t) : t.jobs.length = s.jobs.length := by
  cases i with
  | begin c source =>
    obtain ⟨-,⟨-,owners,-,rfl⟩ | rfl⟩ := step_begin hstep
    · exact List.length_set
    · rfl
  | put c =>
    obtain ⟨source,block,done,x,-,-,rfl⟩ := step_put hstep
    exact List.length_set
  | turn c =>
    obtain ⟨source,block,-,rfl⟩ := step_turn hstep
    exact List.length_set
  | get c =>
    obtain ⟨source,block,result,-,-,rfl⟩ := step_get hstep
    exact List.length_set
  | finish c =>
    obtain ⟨source,block,result,owners,-,-,-,rfl⟩ := step_finish hstep
    exact List.length_set

theorem Sound.step_allocated (h : s.Sound blockSize) (hpos : 0 < blockSize)
    (hbounded : blockSize*64 < 2^64) {i : Step} (hstep : CopyClients.step i s = some t) :
    t.owners.pool.allocatedBlocks = s.owners.pool.allocatedBlocks ∨
      (t.owners.pool.allocatedBlocks = s.owners.pool.allocatedBlocks+64 ∧
        t.owners.held.length = s.owners.pool.allocatedBlocks+1) := by
  cases i with
  | begin c source =>
    obtain ⟨-,⟨hsize,owners,howners,rfl⟩ | rfl⟩ := step_begin hstep
    · cases howners
      have hcounted := h.counted
      rw [← h.kept.size] at hpos hbounded
      rcases acquire_counted hpos hbounded hsize with ⟨-,-,halloc⟩ | ⟨hempty,-,halloc⟩
      · exact Or.inl halloc
      · refine Or.inr ⟨halloc,?_⟩
        rw [BufferPool.freeBlocks,hempty,List.length_nil,Nat.zero_add] at hcounted
        rw [← hcounted,List.length_cons]
    · exact Or.inl rfl
  | put c =>
    obtain ⟨source,block,done,x,hjob,hx,rfl⟩ := step_put hstep
    have hlt := (List.getElem?_eq_some_iff.mp hx).1
    obtain ⟨hend,hslab⟩ := h.fits hjob
    simp only [Copying.lease] at hend hslab
    refine Or.inl (allocatedBlocks_memcpy ⟨?_,hslab⟩)
    simp only [List.length_singleton]
    omega
  | turn c =>
    obtain ⟨source,block,-,rfl⟩ := step_turn hstep
    exact Or.inl rfl
  | get c =>
    obtain ⟨source,block,result,-,-,rfl⟩ := step_get hstep
    exact Or.inl rfl
  | finish c =>
    obtain ⟨source,block,result,owners,-,-,howners,rfl⟩ := step_finish hstep
    rw [PoolOwners.step] at howners
    split at howners
    · cases howners
      exact Or.inl rfl
    · cases howners

/-- The pool has the blocks it began with, unless more copies than that were under way at
once; and then it has at most 63 more than there are clients. -/
theorem pool_grows_with_clients {clients blockSize initialBlocks : Nat} (hpos : 0 < blockSize)
    (hbounded : blockSize*64 < 2^64) (hinitial : initialBlocks*blockSize < 2^64)
    {steps : List Step} (hrun : Runs.Moves step (start clients blockSize initialBlocks) steps s) :
    s.owners.pool.allocatedBlocks = initialBlocks ∨
      (initialBlocks < clients ∧ s.owners.pool.allocatedBlocks ≤ clients+63) := by
  have hstart := sound_start clients hpos hinitial
  have hblocks : (start clients blockSize initialBlocks).owners.pool.allocatedBlocks =
      initialBlocks := by
    rw [← hstart.counted]
    simp only [start,PoolOwners.start,BufferPool.create,BufferPool.freeBlocks,length_pushBlocks,
      List.length_nil,Nat.add_zero]
  refine (Runs.moves_invariant (I := fun u => u.Sound blockSize ∧ u.jobs.length = clients ∧
      (u.owners.pool.allocatedBlocks = initialBlocks ∨
        (initialBlocks < clients ∧ u.owners.pool.allocatedBlocks ≤ clients+63)))
    (fun i _ u v hu hmove => ?_) ⟨hstart,List.length_replicate,Or.inl hblocks⟩ hrun).2.2
  obtain ⟨hsound,hjobs,hgrown⟩ := hu
  have hnext := hsound.step hpos hbounded hmove
  have hlength := (step_jobs hmove).trans hjobs
  refine ⟨hnext,hlength,?_⟩
  rcases hsound.step_allocated hpos hbounded hmove with hsame | ⟨hmore,hheld⟩
  · rw [hsame]
    exact hgrown
  · have hcount := List.countP_le_length (p := Option.isSome) (l := v.jobs)
    rw [← hnext.length_held,hheld,hlength] at hcount
    refine Or.inr ⟨?_,by omega⟩
    rcases hgrown with hfirst | ⟨hless,-⟩
    · omega
    · exact hless

theorem pool_grows_with_clients_example :
    ∃ s, Runs.Moves step (start 3 4 2) [.begin 0 [],.begin 2 [],.begin 1 []] s ∧
      s.owners.pool.allocatedBlocks = 66 ∧
      (s.owners.pool.allocatedBlocks = 2 ∨ (2 < 3 ∧ s.owners.pool.allocatedBlocks ≤ 3+63)) := by
  have hend : (List.foldlM (fun u i => step i u) (start 3 4 2)
      [.begin 0 [],.begin 2 [],.begin 1 []]).map (fun s => s.owners.pool.allocatedBlocks) =
      some 66 := by decide +kernel
  obtain ⟨s,hs,hblocks⟩ := Option.map_eq_some_iff.mp hend
  have hrun := Runs.moves_iff_foldlM.mpr hs
  exact ⟨s,hrun,hblocks,pool_grows_with_clients (by decide) (by decide) (by decide) hrun⟩

end CopyClients
end VoltDBX
