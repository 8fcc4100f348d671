import Mathlib.Data.List.Infix

/-!
Glob patterns: the wild symbol stands for any sequence, every other symbol for itself.
-/

set_option autoImplicit false

namespace Glob

variable {α : Type} [DecidableEq α]

def Matches (wild : α) : List α → List α → Prop
  | [], key => key = []
  | c :: pattern, key =>
    if c = wild then ∃ u v, key = u ++ v ∧ Matches wild pattern v
    else ∃ v, key = c :: v ∧ Matches wild pattern v

variable {wild : α}

theorem matches_wild_cons (pattern key : List α) :
    Matches wild (wild :: pattern) key ↔ ∃ u v, key = u ++ v ∧ Matches wild pattern v := by
  simp [Matches]

theorem matches_literal_append {l : List α} (hl : wild ∉ l) (pattern key : List α) :
    Matches wild (l ++ pattern) key ↔ ∃ v, key = l ++ v ∧ Matches wild pattern v := by
  induction l generalizing key with
  | nil => simp
  | cons c l ih =>
    have hc : c ≠ wild := fun h => hl (by simp [h])
    have hrest : wild ∉ l := fun h => hl (by simp [h])
    simp only [List.cons_append,Matches,if_neg hc]
    constructor
    · intro h
      obtain ⟨v,rfl,hv⟩ := h
      obtain ⟨w,rfl,hw⟩ := (ih hrest v).mp hv
      exact ⟨w,rfl,hw⟩
    · intro h
      obtain ⟨w,rfl,hw⟩ := h
      exact ⟨l ++ w,rfl,(ih hrest (l ++ w)).mpr ⟨w,rfl,hw⟩⟩

theorem matches_wild (key : List α) : Matches wild [wild] key := by
  rw [matches_wild_cons]
  exact ⟨key,[],by simp,rfl⟩

theorem matches_literal {l : List α} (hl : wild ∉ l) (key : List α) :
    Matches wild l key ↔ key = l := by
  have h := matches_literal_append hl [] key
  simpa [Matches] using h

theorem matches_suffix {l : List α} (hl : wild ∉ l) (key : List α) :
    Matches wild (wild :: l) key ↔ l <:+ key := by
  rw [matches_wild_cons]
  constructor
  · intro h
    obtain ⟨u,v,rfl,hv⟩ := h
    exact ⟨u,by rw [(matches_literal hl v).mp hv]⟩
  · intro h
    obtain ⟨u,rfl⟩ := h
    exact ⟨u,l,rfl,(matches_literal hl l).mpr rfl⟩

theorem matches_begins {l : List α} (hl : wild ∉ l) (key : List α) :
    Matches wild (l ++ [wild]) key ↔ l <+: key := by
  rw [matches_literal_append hl]
  constructor
  · intro h
    obtain ⟨v,rfl,-⟩ := h
    exact ⟨v,rfl⟩
  · intro h
    obtain ⟨v,rfl⟩ := h
    exact ⟨v,rfl,matches_wild v⟩

theorem matches_within {l : List α} (hl : wild ∉ l) (key : List α) :
    Matches wild (wild :: (l ++ [wild])) key ↔ l <:+: key := by
  rw [matches_wild_cons]
  constructor
  · intro h
    obtain ⟨u,v,rfl,hv⟩ := h
    obtain ⟨w,rfl⟩ := (matches_begins hl v).mp hv
    exact ⟨u,w,by simp⟩
  · intro h
    obtain ⟨u,w,rfl⟩ := h
    exact ⟨u,l ++ w,by simp,(matches_begins hl _).mpr ⟨w,rfl⟩⟩

end Glob
