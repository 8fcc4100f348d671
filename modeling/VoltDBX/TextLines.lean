import Mathlib.Data.List.Basic

/-!
Text read line by line. A line ends at a separator or at the end of the text;
a text that ends in a separator has no further, empty line after it.
-/

set_option autoImplicit false

namespace TextLines

variable {α : Type}

def Terminated (sep : α) (cs : List α) : Prop := cs = [] ∨ cs.getLast? = some sep

def unlines (sep : α) : List (List α) → List α
  | [] => []
  | l :: ls => l ++ sep :: unlines sep ls

theorem terminated_line (sep : α) (cs : List α) : Terminated sep (cs ++ [sep]) :=
  Or.inr (by simp)

theorem terminated_unlines (sep : α) (ls : List (List α)) :
    Terminated sep (unlines sep ls) := by
  induction ls with
  | nil => exact Or.inl rfl
  | cons l ls ih =>
    rcases ih with ih | ih
    · simp only [unlines,ih]
      exact terminated_line sep l
    · refine Or.inr ?_
      cases hu : unlines sep ls with
      | nil => simp [hu] at ih
      | cons c cs => simpa [unlines,hu] using ih

theorem length_unlines_perm (sep : α) {ls ms : List (List α)} (h : ls.Perm ms) :
    (unlines sep ls).length = (unlines sep ms).length := by
  induction h with
  | nil => rfl
  | cons l _ ih => simp only [unlines,List.length_append,List.length_cons,ih]
  | swap l m ls =>
    simp only [unlines,List.length_append,List.length_cons]
    omega
  | trans _ _ ih ih' => exact ih.trans ih'

variable [DecidableEq α]

def lines (sep : α) : List α → List (List α)
  | [] => []
  | c :: cs =>
    if c = sep then [] :: lines sep cs
    else match lines sep cs with
      | [] => [[c]]
      | l :: ls => (c :: l) :: ls

/-- The lines that have their separator, when `buffer` was read before the text. -/
def completeFrom (sep : α) : List α → List α → List (List α)
  | _, [] => []
  | buffer, c :: cs =>
    if c = sep then buffer :: completeFrom sep [] cs else completeFrom sep (buffer ++ [c]) cs

theorem completeFrom_append (sep : α) (cs ds : List α) (buffer : List α) :
    completeFrom sep buffer cs <+: completeFrom sep buffer (cs ++ ds) := by
  induction cs generalizing buffer with
  | nil => exact List.nil_prefix
  | cons c cs ih =>
    by_cases hc : c = sep
    · simp only [List.cons_append,completeFrom,hc,if_true]
      exact (List.prefix_cons_inj buffer).mpr (ih [])
    · simp only [List.cons_append,completeFrom,hc,if_false]
      exact ih (buffer ++ [c])

theorem unlines_completeFrom {sep : α} (cs : List α) {buffer : List α} (h : sep ∉ buffer) :
    ∃ tail, buffer ++ cs = unlines sep (completeFrom sep buffer cs) ++ tail ∧ sep ∉ tail ∧
      ∀ l ∈ completeFrom sep buffer cs, sep ∉ l := by
  induction cs generalizing buffer with
  | nil => exact ⟨buffer,by simp [completeFrom,unlines],h,by simp [completeFrom]⟩
  | cons c cs ih =>
    by_cases hc : c = sep
    · obtain ⟨tail,htext,htail,hlines⟩ := @ih [] (by simp)
      simp only [completeFrom,hc,if_true]
      refine ⟨tail,?_,htail,?_⟩
      · rw [List.nil_append] at htext
        rw [unlines,List.append_assoc,List.cons_append,← htext]
      · intro l hl
        rcases List.mem_cons.mp hl with rfl | hl
        · exact h
        · exact hlines l hl
    · have hnext : sep ∉ buffer ++ [c] := by simp [h,Ne.symm hc]
      obtain ⟨tail,htext,htail,hlines⟩ := ih hnext
      simp only [completeFrom,hc,if_false]
      exact ⟨tail,by rw [← htext]; simp,htail,hlines⟩

theorem length_le_completeFrom {sep : α} {cs buffer l : List α} {ls : List (List α)}
    (h : completeFrom sep buffer cs = l :: ls) : buffer.length ≤ l.length := by
  induction cs generalizing buffer with
  | nil => simp [completeFrom] at h
  | cons c cs ih =>
    by_cases hc : c = sep
    · simp only [completeFrom,hc,if_true,List.cons.injEq] at h
      exact Nat.le_of_eq (congrArg List.length h.1)
    · simp only [completeFrom,hc,if_false] at h
      have hle := ih h
      rw [List.length_append] at hle
      omega

@[simp] theorem lines_nil (sep : α) : lines sep [] = [] := rfl

theorem lines_line {sep : α} {l : List α} (h : sep ∉ l) (rest : List α) :
    lines sep (l ++ sep :: rest) = l :: lines sep rest := by
  induction l with
  | nil => simp [lines]
  | cons c l ih =>
    simp only [List.mem_cons,not_or] at h
    simp [lines,Ne.symm h.1,ih h.2]

theorem lines_unlines {sep : α} {ls : List (List α)} (h : ∀ l ∈ ls, sep ∉ l)
    (rest : List α) : lines sep (unlines sep ls ++ rest) = ls ++ lines sep rest := by
  induction ls with
  | nil => simp [unlines]
  | cons l ls ih =>
    have hl : sep ∉ l := h l (by simp)
    have ht := ih (fun x hx => h x (by simp [hx]))
    simp [unlines,lines_line hl,ht]

theorem notMem_of_mem_lines {sep : α} {cs l : List α} (h : l ∈ lines sep cs) : sep ∉ l := by
  induction cs generalizing l with
  | nil => simp at h
  | cons c cs ih =>
    by_cases hc : c = sep
    · simp only [lines,hc,if_true,List.mem_cons] at h
      rcases h with rfl | h
      · simp
      · exact ih h
    · simp only [lines,hc,if_false] at h
      cases hl : lines sep cs with
      | nil =>
        simp only [hl,List.mem_singleton] at h
        subst h
        simpa using Ne.symm hc
      | cons m ms =>
        simp only [hl,List.mem_cons] at h
        have hm : sep ∉ m := ih (by simp [hl])
        rcases h with rfl | h
        · simp [Ne.symm hc,hm]
        · exact ih (by simp [hl,h])

theorem unlines_lines {sep : α} {cs : List α} (h : Terminated sep cs) :
    unlines sep (lines sep cs) = cs := by
  induction cs with
  | nil => rfl
  | cons c cs ih =>
    have ht : c = sep ∨ cs ≠ [] := by
      rcases h with h | h
      · simp at h
      · cases cs with
        | nil => simp at h; exact Or.inl h
        | cons d ds => exact Or.inr (by simp)
    have htail : Terminated sep cs := by
      cases cs with
      | nil => exact Or.inl rfl
      | cons d ds =>
        rcases h with h | h
        · simp at h
        · exact Or.inr (by simpa using h)
    have hcs := ih htail
    by_cases hc : c = sep
    · simp [lines,hc,unlines,hcs]
    · simp only [lines,hc,if_false]
      cases hl : lines sep cs with
      | nil =>
        rw [hl] at hcs
        rcases ht with ht | ht
        · exact absurd ht hc
        · exact absurd hcs.symm ht
      | cons l ls =>
        rw [hl] at hcs
        simpa [unlines] using hcs

theorem lines_append {sep : α} {cs : List α} (h : Terminated sep cs) (rest : List α) :
    lines sep (cs ++ rest) = lines sep cs ++ lines sep rest := by
  conv_lhs => rw [← unlines_lines h]
  exact lines_unlines (fun l hl => notMem_of_mem_lines hl) rest

theorem lines_of_notMem {sep : α} {cs : List α} (h : sep ∉ cs) :
    lines sep cs = if cs = [] then [] else [cs] := by
  induction cs with
  | nil => rfl
  | cons c cs ih =>
    simp only [List.mem_cons,not_or] at h
    rw [if_neg (by simp)]
    simp only [lines,Ne.symm h.1,if_false,ih h.2]
    cases cs with
    | nil => rfl
    | cons d ds => rfl

/-- The lines of the first `n` characters of a text. The last one may be cut, and what is
left of it is a line only when it is not empty. -/
def cutLines : List (List α) → Nat → List (List α)
  | [], _ => []
  | l :: ls, n =>
    if n = 0 then []
    else if n ≤ l.length then [l.take n]
    else l :: cutLines ls (n-(l.length+1))

omit [DecidableEq α] in
@[simp] theorem cutLines_zero (ls : List (List α)) : cutLines ls 0 = [] := by
  cases ls with
  | nil => rfl
  | cons l ls => rfl

theorem lines_take_unlines {sep : α} {ls : List (List α)} (h : ∀ l ∈ ls, sep ∉ l) (n : Nat) :
    lines sep ((unlines sep ls).take n) = cutLines ls n := by
  induction ls generalizing n with
  | nil => simp [unlines,cutLines]
  | cons l ls ih =>
    have hl : sep ∉ l := h l (by simp)
    have hpiece : sep ∉ l.take n := fun hmem => hl (List.mem_of_mem_take hmem)
    by_cases hzero : n = 0
    · simp [hzero]
    · by_cases hcut : n ≤ l.length
      · have hne : l.take n ≠ [] := by
          simp only [ne_eq,List.take_eq_nil_iff,not_or]
          exact ⟨hzero,fun hnil => hzero (by simpa [hnil] using hcut)⟩
        rw [unlines,List.take_append_of_le_length hcut,lines_of_notMem hpiece,if_neg hne]
        simp [cutLines,hzero,hcut]
      · have htake : (unlines sep (l :: ls)).take n =
            l ++ sep :: (unlines sep ls).take (n-(l.length+1)) := by
          obtain ⟨m,rfl⟩ : ∃ m, n = l.length+1+m := ⟨n-(l.length+1),by omega⟩
          rw [unlines,Nat.add_sub_cancel_left,Nat.add_assoc,List.take_length_add_append,
            Nat.add_comm 1 m,List.take_succ_cons]
        rw [htake,lines_line hl,ih fun x hx => h x (by simp [hx])]
        simp [cutLines,hzero,hcut]

end TextLines
