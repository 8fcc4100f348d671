import Mathlib.Data.List.GetD
import VoltDBX.Text

/-!
The buffer pool of memory/buffer_pool.cpp and the string copies that pass
through its blocks. A pointer is a slab number with an offset into that slab; the sizes of
slabs are products in 64 bits.
-/

set_option autoImplicit false

namespace VoltDBX

structure Block where
  slab : Nat
  offset : Nat
  deriving DecidableEq, Repr

/-- The back of the vector `free_list_` is the head of `freeList`. -/
structure BufferPool where
  blockSize : Nat
  freeList : List Block
  slabs : List Bytes
  deriving DecidableEq, Repr

namespace BufferPool

/-- `push_back(base + i * block_size_)` for `i = 0, ..., count-1`. -/
def pushBlocks (blockSize slab count : Nat) (free : List Block) : List Block :=
  (List.range count).foldl (fun f i => ⟨slab,i*blockSize%2^64⟩ :: f) free

def create (blockSize initialBlocks : Nat) : BufferPool :=
  ⟨blockSize,pushBlocks blockSize 0 initialBlocks [],
    [List.replicate (initialBlocks*blockSize%2^64) 0]⟩

def refill (p : BufferPool) : BufferPool :=
  if p.freeList.isEmpty then
    ⟨p.blockSize,pushBlocks p.blockSize p.slabs.length 64 p.freeList,
      p.slabs ++ [List.replicate (p.blockSize*64%2^64) 0]⟩
  else p

/-- `free_list_` is not empty after `refill`, so `back()` has a value. -/
def acquire (p : BufferPool) (minSize : Nat) : Block × BufferPool :=
  if p.blockSize < minSize then
    (⟨p.slabs.length,0⟩,⟨p.blockSize,p.freeList,p.slabs ++ [List.replicate minSize 0]⟩)
  else
    (p.refill.freeList.headD ⟨0,0⟩,
      ⟨p.blockSize,p.refill.freeList.tail,p.refill.slabs⟩)

def release (p : BufferPool) : Option Block → BufferPool
  | none => p
  | some b => ⟨p.blockSize,b :: p.freeList,p.slabs⟩

def memcpy (p : BufferPool) (b : Block) (source : Bytes) : BufferPool :=
  ⟨p.blockSize,p.freeList,p.slabs.modify b.slab
    (fun s => s.take b.offset ++ source ++ s.drop (b.offset+source.length))⟩

def read (p : BufferPool) (b : Block) (n : Nat) : Bytes :=
  ((p.slabs.getD b.slab []).drop b.offset).take n

def Fits (p : BufferPool) (b : Block) (n : Nat) : Prop :=
  b.offset+n ≤ (p.slabs.getD b.slab []).length ∧ b.slab < p.slabs.length

/-- Every free block is a whole block of some slab, and so are those of the next slab. -/
structure FreeFits (p : BufferPool) : Prop where
  whole : ∀ b ∈ p.freeList, p.Fits b p.blockSize
  bounded : p.blockSize*64 < 2^64

theorem mem_pushBlocks {blockSize slab count : Nat} {free : List Block} {b : Block} :
    b ∈ pushBlocks blockSize slab count free ↔
      b ∈ free ∨ ∃ i < count, b = ⟨slab,i*blockSize%2^64⟩ := by
  unfold pushBlocks
  induction count with
  | zero => simp
  | succ count ih =>
    rw [List.range_succ,List.foldl_append]
    simp only [List.foldl_cons,List.foldl_nil,List.mem_cons,ih]
    constructor
    · rintro (rfl | h | ⟨i,hi,rfl⟩)
      · exact Or.inr ⟨count,by omega,rfl⟩
      · exact Or.inl h
      · exact Or.inr ⟨i,by omega,rfl⟩
    · rintro (h | ⟨i,hi,rfl⟩)
      · exact Or.inr (Or.inl h)
      · by_cases he : i = count
        · exact Or.inl (by rw [he])
        · exact Or.inr (Or.inr ⟨i,by omega,rfl⟩)

theorem Fits.append {p : BufferPool} {b : Block} {n : Nat} (h : p.Fits b n)
    (free : List Block) (s : Bytes) : Fits ⟨p.blockSize,free,p.slabs ++ [s]⟩ b n := by
  have hlt := h.2
  refine ⟨?_,by simp only [List.length_append]; omega⟩
  rw [List.getD_append _ _ _ _ hlt]
  exact h.1

theorem fits_slab {p : BufferPool} {i count slab : Nat} (hi : i < count)
    (hbounded : count*p.blockSize < 2^64) (hslab : slab < p.slabs.length)
    (hlen : (p.slabs.getD slab []).length = count*p.blockSize%2^64) :
    p.Fits ⟨slab,i*p.blockSize%2^64⟩ p.blockSize := by
  have hle : (i+1)*p.blockSize ≤ count*p.blockSize := Nat.mul_le_mul_right _ hi
  rw [Nat.add_mul,Nat.one_mul] at hle
  refine ⟨?_,hslab⟩
  rw [hlen,Nat.mod_eq_of_lt hbounded,Nat.mod_eq_of_lt (by omega)]
  exact hle

theorem freeFits_create {blockSize initialBlocks : Nat} (hbounded : blockSize*64 < 2^64)
    (hinitial : initialBlocks*blockSize < 2^64) : (create blockSize initialBlocks).FreeFits := by
  refine ⟨?_,hbounded⟩
  intro b hb
  rcases mem_pushBlocks.mp hb with h | ⟨i,hi,rfl⟩
  · simp at h
  · exact fits_slab hi hinitial (by simp [create]) (by simp [create])

theorem refill_eq_of_empty {p : BufferPool} (h : p.freeList = []) :
    p.refill = ⟨p.blockSize,pushBlocks p.blockSize p.slabs.length 64 [],
      p.slabs ++ [List.replicate (p.blockSize*64%2^64) 0]⟩ := by
  simp [BufferPool.refill,h]

theorem refill_of_ne {p : BufferPool} (h : p.freeList ≠ []) : p.refill = p := by
  simp [BufferPool.refill,h]

theorem FreeFits.refill {p : BufferPool} (h : p.FreeFits) : p.refill.FreeFits := by
  by_cases hempty : p.freeList = []
  · rw [refill_eq_of_empty hempty]
    refine ⟨?_,h.bounded⟩
    intro b hb
    rcases mem_pushBlocks.mp hb with hb | ⟨i,hi,rfl⟩
    · simp at hb
    · refine fits_slab hi ?_ (by simp) ?_
      · rw [Nat.mul_comm]
        exact h.bounded
      · simp [Nat.mul_comm 64]
  · rw [refill_of_ne hempty]
    exact h

theorem refill_blockSize (p : BufferPool) : p.refill.blockSize = p.blockSize := by
  unfold BufferPool.refill
  split <;> rfl

theorem refill_ne_nil (p : BufferPool) : p.refill.freeList ≠ [] := by
  by_cases hempty : p.freeList = []
  · rw [refill_eq_of_empty hempty]
    intro h
    have hmem : (⟨p.slabs.length,0*p.blockSize%2^64⟩ : Block) ∈
        pushBlocks p.blockSize p.slabs.length 64 [] :=
      mem_pushBlocks.mpr (Or.inr ⟨0,by decide,rfl⟩)
    have h' : pushBlocks p.blockSize p.slabs.length 64 [] = [] := h
    simp [h'] at hmem
  · rw [refill_of_ne hempty]
    exact hempty

theorem FreeFits.acquire {p : BufferPool} (h : p.FreeFits) {n : Nat} (hn : n ≤ p.blockSize) :
    (p.acquire n).2.Fits (p.acquire n).1 p.blockSize ∧ (p.acquire n).2.FreeFits ∧
      (p.acquire n).2.blockSize = p.blockSize := by
  have hnot : ¬ p.blockSize < n := by omega
  have hfits := h.refill
  have hsize := refill_blockSize p
  obtain ⟨b,free,hb⟩ := List.exists_cons_of_ne_nil (refill_ne_nil p)
  simp only [BufferPool.acquire,hnot,if_false,hb,List.headD_cons,List.tail_cons]
  have hwhole := hfits.whole
  rw [hb,hsize] at hwhole
  exact ⟨hwhole b (by simp),⟨fun c hc => hwhole c (by simp [hc]),h.bounded⟩,trivial⟩

theorem length_memcpy {s source : Bytes} {off : Nat} (h : off+source.length ≤ s.length) :
    (s.take off ++ source ++ s.drop (off+source.length)).length = s.length := by
  simp
  omega

theorem Fits.memcpy {p : BufferPool} {b c : Block} {source : Bytes} {n : Nat}
    (hb : p.Fits b source.length) (hc : p.Fits c n) : (p.memcpy b source).Fits c n := by
  refine ⟨?_,by simpa [BufferPool.memcpy] using hc.2⟩
  have hlt := hc.2
  have hcn := hc.1
  have hbn := hb.1
  simp only [BufferPool.memcpy,List.getD_eq_getElem?_getD,List.getElem?_modify] at *
  by_cases he : b.slab = c.slab
  · simp only [he,if_true] at *
    rw [List.getElem?_eq_getElem hlt] at *
    simp only [Option.map_eq_map,Option.map_some,Option.getD_some] at *
    rw [length_memcpy hbn]
    exact hcn
  · simpa [he] using hcn

theorem Fits.read_memcpy {p : BufferPool} {b : Block} {source : Bytes}
    (h : p.Fits b source.length) : (p.memcpy b source).read b source.length = source := by
  have hlt := h.2
  have hle := h.1
  simp only [BufferPool.memcpy,read,List.getD_eq_getElem?_getD,List.getElem?_modify] at *
  rw [List.getElem?_eq_getElem hlt] at *
  simp only [if_true,Option.map_eq_map,Option.map_some,Option.getD_some] at *
  have htake : (p.slabs[b.slab].take b.offset).length = b.offset := by simp; omega
  rw [List.append_assoc,List.drop_append_of_le_length (by omega),List.drop_of_length_le (by omega)]
  simp

end BufferPool

structure StringPool where
  pool : BufferPool
  copies : Nat
  fits : pool.FreeFits

namespace StringPool
open BufferPool

def create (pool : BufferPool) (fits : pool.FreeFits) : StringPool := ⟨pool,0,fits⟩

def throughBlock (p : BufferPool) (source : Bytes) : BufferPool :=
  ((p.acquire source.length).2.memcpy (p.acquire source.length).1 source).release
    (some (p.acquire source.length).1)

theorem acquire_fits {p : BufferPool} (h : p.FreeFits) {source : Bytes}
    (hs : source.length ≤ p.blockSize) :
    (p.acquire source.length).2.Fits (p.acquire source.length).1 source.length := by
  have hfit := (h.acquire hs).1
  exact ⟨by have := hfit.1; omega,hfit.2⟩

theorem freeFits_throughBlock {p : BufferPool} (h : p.FreeFits) {source : Bytes}
    (hs : source.length ≤ p.blockSize) : (throughBlock p source).FreeFits := by
  obtain ⟨hfit,hfree,hsize⟩ := h.acquire hs
  have hsrc := acquire_fits h hs
  have hbs : (throughBlock p source).blockSize = p.blockSize := hsize
  refine ⟨?_,by rw [hbs]; exact h.bounded⟩
  intro b hb
  rw [hbs]
  rcases List.mem_cons.mp hb with rfl | hb
  · exact Fits.memcpy hsrc hfit
  · have hold := hfree.whole b hb
    rw [hsize] at hold
    exact Fits.memcpy hsrc hold

def copy (s : StringPool) (source : Bytes) : Bytes × StringPool :=
  if h : source.length ≤ s.pool.blockSize then
    (((s.pool.acquire source.length).2.memcpy (s.pool.acquire source.length).1 source).read
        (s.pool.acquire source.length).1 source.length,
      ⟨throughBlock s.pool source,s.copies+1,freeFits_throughBlock s.fits h⟩)
  else (source,⟨s.pool,s.copies+1,s.fits⟩)

@[simp] theorem copy_fst (s : StringPool) (source : Bytes) : (s.copy source).1 = source := by
  unfold copy
  split
  · rename_i h
    exact Fits.read_memcpy (acquire_fits s.fits h)
  · rfl

end StringPool
end VoltDBX
