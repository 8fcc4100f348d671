import Mathlib.Data.List.TakeWhile

/-!
Words of a text: the maximal runs of symbols that are not blank, as positions of the
text and as the derivation of the text from its words.
-/

set_option autoImplicit false

namespace Words

variable {α : Type}

def Solid (blank : α → Bool) (s : List α) (k : Nat) : Prop :=
  ∃ c, s[k]? = some c ∧ blank c = false

/-- Positions `i` up to `j`, not counting `j`, that cannot be extended on either side. -/
structure MaximalRun (blank : α → Bool) (s : List α) (i j : Nat) : Prop where
  occupied : i < j
  inside : ∀ k, i ≤ k → k < j → Solid blank s k
  left : i = 0 ∨ ¬ Solid blank s (i-1)
  right : ¬ Solid blank s j

def slice (s : List α) (i j : Nat) : List α := (s.drop i).take (j-i)

/-- The words are those at all the maximal runs, from left to right. -/
def AreMaximalRuns (blank : α → Bool) (s : List α) (ws : List (List α)) : Prop :=
  ∃ spans : List (Nat × Nat),
    spans.Pairwise (fun a b => a.2 ≤ b.1) ∧
    (∀ i j, (i,j) ∈ spans ↔ MaximalRun blank s i j) ∧
    ws = spans.map fun a => slice s a.1 a.2

structure IsWord (blank : α → Bool) (w : List α) : Prop where
  nonempty : w ≠ []
  solid : ∀ c ∈ w, blank c = false

def IsBlank (blank : α → Bool) (s : List α) : Prop := ∀ c ∈ s, blank c = true

/-- A text derived from its words: blanks, a word, and a rest that does not go on with it. -/
inductive Layout (blank : α → Bool) : List (List α) → List α → Prop where
  | nil {b : List α} : IsBlank blank b → Layout blank [] b
  | cons {b w r : List α} {ws : List (List α)} : IsBlank blank b → IsWord blank w →
      (∀ c, r.head? = some c → blank c = true) → Layout blank ws r →
      Layout blank (w :: ws) (b ++ (w ++ r))

section Layout

variable {blank : α → Bool}

theorem isBlank_append {s t : List α} :
    IsBlank blank (s ++ t) ↔ IsBlank blank s ∧ IsBlank blank t := by
  simp [IsBlank,or_imp,forall_and]

theorem Layout.prepend {ws : List (List α)} {s b : List α} (h : Layout blank ws s)
    (hb : IsBlank blank b) : Layout blank ws (b ++ s) := by
  cases h with
  | nil hs => exact .nil (isBlank_append.mpr ⟨hb,hs⟩)
  | cons hs hw hr hrest =>
    rw [← List.append_assoc]
    exact .cons (isBlank_append.mpr ⟨hb,hs⟩) hw hr hrest

theorem Layout.append {ws : List (List α)} {s b : List α} (h : Layout blank ws s)
    (hb : IsBlank blank b) : Layout blank ws (s ++ b) := by
  induction h with
  | nil hs => exact .nil (isBlank_append.mpr ⟨hs,hb⟩)
  | @cons b' w r ws hs hw hr _ ih =>
    rw [List.append_assoc,List.append_assoc]
    refine .cons hs hw ?_ ih
    intro c hc
    cases r with
    | nil => exact hb c (List.mem_of_mem_head? hc)
    | cons d r => exact hr c hc

theorem layout_nil_iff {s : List α} : Layout blank [] s ↔ IsBlank blank s := by
  constructor
  · intro h
    cases h with
    | nil hs => exact hs
  · exact Layout.nil

theorem dropWhile_blank {b s : List α} (hb : IsBlank blank b)
    (hs : ∀ c, s.head? = some c → blank c = false) : (b ++ s).dropWhile blank = s := by
  induction b with
  | nil =>
    cases s with
    | nil => rfl
    | cons c s => simp [hs c (by simp)]
  | cons d b ih =>
    have hd : blank d = true := hb d (by simp)
    simp only [List.cons_append,List.dropWhile_cons,hd,if_true]
    exact ih fun c hc => hb c (by simp [hc])

theorem IsWord.head {w r : List α} (hw : IsWord blank w) {c : α}
    (hc : (w ++ r).head? = some c) : blank c = false := by
  cases w with
  | nil => exact absurd rfl hw.nonempty
  | cons d w =>
    simp only [List.cons_append,List.head?_cons,Option.some.injEq] at hc
    exact hc ▸ hw.solid d (by simp)

end Layout

section Positions

variable {blank : α → Bool}

theorem not_solid_of_head {r : List α} (hr : ∀ c, r.head? = some c → blank c = true) :
    ¬ Solid blank r 0 := by
  intro h
  obtain ⟨c,hc,hb⟩ := h
  rw [← List.head?_eq_getElem?] at hc
  simp [hr c hc] at hb

theorem not_solid_of_isBlank {s : List α} (hs : IsBlank blank s) (k : Nat) :
    ¬ Solid blank s k := by
  intro h
  obtain ⟨c,hc,hb⟩ := h
  simp [hs c (List.mem_of_getElem? hc)] at hb

theorem solid_append {b w r : List α} (hb : IsBlank blank b) (hw : IsWord blank w) (k : Nat) :
    Solid blank (b ++ (w ++ r)) k ↔
      (b.length ≤ k ∧ k < b.length+w.length) ∨
      (b.length+w.length ≤ k ∧ Solid blank r (k-(b.length+w.length))) := by
  rcases Nat.lt_or_ge k b.length with hk | hk
  · have hnot : ¬ Solid blank (b ++ (w ++ r)) k := by
      intro h
      obtain ⟨c,hc,hs⟩ := h
      rw [List.getElem?_append_left hk] at hc
      exact not_solid_of_isBlank hb k ⟨c,hc,hs⟩
    constructor
    · intro h; exact absurd h hnot
    · intro h; omega
  · rcases Nat.lt_or_ge k (b.length+w.length) with hkw | hkw
    · constructor
      · intro _; exact Or.inl ⟨hk,hkw⟩
      · intro _
        have hlt : k-b.length < w.length := by omega
        refine ⟨w[k-b.length],?_,hw.solid _ (List.getElem_mem hlt)⟩
        rw [List.getElem?_append_right hk,List.getElem?_append_left hlt]
        exact List.getElem?_eq_getElem hlt
    · have hget : (b ++ (w ++ r))[k]? = r[k-(b.length+w.length)]? := by
        rw [List.getElem?_append_right hk,List.getElem?_append_right (by omega),Nat.sub_sub]
      constructor
      · intro h
        refine Or.inr ⟨hkw,?_⟩
        simpa only [Solid,hget] using h
      · intro h
        rcases h with h | h
        · omega
        · simpa only [Solid,hget] using h.2

theorem maximalRun_word {b w r : List α} (hb : IsBlank blank b) (hw : IsWord blank w)
    (hr : ∀ c, r.head? = some c → blank c = true) :
    MaximalRun blank (b ++ (w ++ r)) b.length (b.length+w.length) := by
  have hlen : 0 < w.length := List.length_pos_iff.mpr hw.nonempty
  refine ⟨by omega,?_,?_,?_⟩
  · intro k hk hkj
    exact (solid_append hb hw k).mpr (Or.inl ⟨hk,hkj⟩)
  · rcases Nat.eq_zero_or_pos b.length with h0 | h0
    · exact Or.inl h0
    · refine Or.inr fun hs => ?_
      rcases (solid_append hb hw _).mp hs with hs | hs <;> omega
  · intro hs
    rcases (solid_append hb hw _).mp hs with hs | hs
    · omega
    · exact not_solid_of_head hr (by simpa using hs.2)

theorem MaximalRun.eq_word {b w r : List α} {i j : Nat} (hb : IsBlank blank b)
    (hw : IsWord blank w) (hr : ∀ c, r.head? = some c → blank c = true)
    (h : MaximalRun blank (b ++ (w ++ r)) i j) (hi : i < b.length+w.length) :
    i = b.length ∧ j = b.length+w.length := by
  have hsolid := fun k => solid_append (r := r) hb hw k
  have hocc := h.occupied
  have hstart : b.length ≤ i := by
    rcases (hsolid i).mp (h.inside i le_rfl hocc) with hs | hs
    · exact hs.1
    · omega
  have hib : i = b.length := by
    rcases h.left with h0 | hl
    · omega
    · by_contra hne
      exact hl ((hsolid (i-1)).mpr (Or.inl (by omega)))
  have hjn : ¬ j < b.length+w.length := fun hj => h.right ((hsolid j).mpr (Or.inl (by omega)))
  have hnj : ¬ b.length+w.length < j := by
    intro hj
    rcases (hsolid (b.length+w.length)).mp (h.inside _ (by omega) hj) with hs | hs
    · omega
    · exact not_solid_of_head hr (by simpa using hs.2)
  omega

theorem MaximalRun.to_rest {b w r : List α} {i j : Nat} (hb : IsBlank blank b)
    (hw : IsWord blank w) (h : MaximalRun blank (b ++ (w ++ r)) i j)
    (hi : b.length+w.length ≤ i) :
    MaximalRun blank r (i-(b.length+w.length)) (j-(b.length+w.length)) := by
  have hsolid := fun k => solid_append (r := r) hb hw k
  have hocc := h.occupied
  generalize b.length+w.length = n at *
  refine ⟨by omega,?_,?_,?_⟩
  · intro k hk hkj
    rcases (hsolid (k+n)).mp (h.inside (k+n) (by omega) (by omega)) with hs | hs
    · omega
    · simpa using hs.2
  · rcases Nat.eq_zero_or_pos (i-n) with h0 | h0
    · exact Or.inl h0
    · refine Or.inr fun hs => ?_
      rcases h.left with hz | hl
      · omega
      · refine hl ((hsolid (i-1)).mpr (Or.inr ⟨by omega,?_⟩))
        rwa [show i-1-n = i-n-1 by omega]
  · intro hs
    exact h.right ((hsolid j).mpr (Or.inr ⟨by omega,hs⟩))

theorem MaximalRun.of_rest {b w r : List α} {i j : Nat} (hb : IsBlank blank b)
    (hw : IsWord blank w) (hr : ∀ c, r.head? = some c → blank c = true)
    (hi : b.length+w.length ≤ i) (hj : b.length+w.length ≤ j)
    (h : MaximalRun blank r (i-(b.length+w.length)) (j-(b.length+w.length))) :
    MaximalRun blank (b ++ (w ++ r)) i j := by
  have hsolid := fun k => solid_append (r := r) hb hw k
  have hocc := h.occupied
  generalize b.length+w.length = n at *
  -- the rest starts with a blank, so no run of it starts at the end of the word
  have hpos : i-n ≠ 0 := fun h0 => not_solid_of_head hr (h0 ▸ h.inside (i-n) le_rfl hocc)
  refine ⟨by omega,?_,?_,?_⟩
  · intro k hk hkj
    exact (hsolid k).mpr (Or.inr ⟨by omega,h.inside (k-n) (by omega) (by omega)⟩)
  · refine Or.inr fun hs => ?_
    rcases (hsolid _).mp hs with hs | hs
    · omega
    · rcases h.left with h0 | hl
      · exact hpos h0
      · exact hl (by rw [show i-n-1 = i-1-n by omega]; exact hs.2)
  · intro hs
    rcases (hsolid _).mp hs with hs | hs
    · omega
    · exact h.right hs.2

/-- The runs of such a text: the word, and the runs of the rest, shifted. -/
theorem maximalRun_append {b w r : List α} (hb : IsBlank blank b) (hw : IsWord blank w)
    (hr : ∀ c, r.head? = some c → blank c = true) (i j : Nat) :
    MaximalRun blank (b ++ (w ++ r)) i j ↔
      (i = b.length ∧ j = b.length+w.length) ∨
      (b.length+w.length ≤ i ∧ b.length+w.length ≤ j ∧
        MaximalRun blank r (i-(b.length+w.length)) (j-(b.length+w.length))) := by
  constructor
  · intro h
    rcases Nat.lt_or_ge i (b.length+w.length) with hi | hi
    · exact Or.inl (h.eq_word hb hw hr hi)
    · exact Or.inr ⟨hi,Nat.le_trans hi (Nat.le_of_lt h.occupied),h.to_rest hb hw hi⟩
  · intro h
    rcases h with ⟨rfl,rfl⟩ | ⟨hi,hj,h⟩
    · exact maximalRun_word hb hw hr
    · exact MaximalRun.of_rest hb hw hr hi hj h

theorem slice_word (b w r : List α) :
    slice (b ++ (w ++ r)) b.length (b.length+w.length) = w := by
  simp [slice]

theorem slice_shift (b w r : List α) (i j : Nat) :
    slice (b ++ (w ++ r)) (i+(b.length+w.length)) (j+(b.length+w.length)) = slice r i j := by
  have hdrop : (b ++ (w ++ r)).drop (i+(b.length+w.length)) = r.drop i := by
    rw [← List.append_assoc,← List.length_append,Nat.add_comm,← List.drop_drop,List.drop_left]
  simp [slice,hdrop,Nat.add_sub_add_right]

/-- The words a text is derived from are its maximal runs. -/
theorem Layout.areMaximalRuns {ws : List (List α)} {s : List α} (h : Layout blank ws s) :
    AreMaximalRuns blank s ws := by
  induction h with
  | @nil b hb =>
    refine ⟨[],.nil,?_,rfl⟩
    intro i j
    simp only [List.not_mem_nil,false_iff]
    intro h
    exact not_solid_of_isBlank hb i (h.inside i le_rfl h.occupied)
  | @cons b w r ws hb hw hr _ ih =>
    obtain ⟨spans,hord,hmem,hws⟩ := ih
    refine ⟨(b.length,b.length+w.length) ::
      spans.map (fun a => (a.1+(b.length+w.length),a.2+(b.length+w.length))),?_,?_,?_⟩
    · rw [List.pairwise_cons]
      constructor
      · intro a ha
        obtain ⟨x,-,rfl⟩ := List.mem_map.mp ha
        exact Nat.le_add_left _ _
      · rw [List.pairwise_map]
        exact hord.imp fun hab => Nat.add_le_add_right hab _
    · intro i j
      rw [maximalRun_append hb hw hr,← hmem]
      simp only [List.mem_cons,Prod.mk.injEq,List.mem_map,Prod.exists]
      constructor
      · intro h
        rcases h with h | ⟨i',j',hm,rfl,rfl⟩
        · exact Or.inl h
        · exact Or.inr ⟨Nat.le_add_left _ _,Nat.le_add_left _ _,by simpa using hm⟩
      · intro h
        rcases h with h | ⟨hi,hj,hm⟩
        · exact Or.inl h
        · exact Or.inr ⟨_,_,hm,by omega,by omega⟩
    · simp only [List.map_cons,List.map_map,slice_word,List.cons.injEq,true_and,hws]
      refine List.map_congr_left fun a _ => ?_
      exact (slice_shift b w r a.1 a.2).symm

end Positions

end Words
