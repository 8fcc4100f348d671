import VoltDBX.Parser
import VoltDBX.Words

/-!
The grammar of command lines: what `parse_line` accepts, and the tokens it gives back.
-/

set_option autoImplicit false

namespace VoltDBX

open Words

theorem isToken_iff {s : Bytes} : IsToken s ↔ IsWord isspace s :=
  ⟨fun h => ⟨h.nonempty,h.solid⟩,fun h => ⟨h.nonempty,h.solid⟩⟩

theorem isBlank_takeWhile (s : Bytes) : IsBlank isspace (s.takeWhile isspace) :=
  fun _ hc => List.mem_takeWhile_imp hc

theorem extractToken_eq_none {s : Bytes} (h : extractToken s = none) : IsBlank isspace s := by
  unfold extractToken at h
  split at h
  · rename_i heq
    exact List.dropWhile_eq_nil_iff.mp heq
  · simp at h

theorem extractToken_eq_some {s token rest : Bytes} (h : extractToken s = some (token,rest)) :
    IsBlank isspace (s.takeWhile isspace) ∧ s = s.takeWhile isspace ++ (token ++ rest) ∧
      (∀ c, rest.head? = some c → isspace c = true) := by
  unfold extractToken at h
  split at h
  · simp at h
  · rename_i c cs heq
    simp only [Option.some.injEq,Prod.mk.injEq] at h
    obtain ⟨rfl,rfl⟩ := h
    refine ⟨isBlank_takeWhile s,?_,?_⟩
    · rw [List.takeWhile_append_dropWhile,← heq,List.takeWhile_append_dropWhile]
    · intro d hd
      have hne : (c :: cs).dropWhile notSpace ≠ [] := by
        intro h0
        simp [h0] at hd
      have hstop := List.head_dropWhile_not notSpace hne
      rw [List.head?_eq_some_head hne,Option.some.injEq] at hd
      rw [hd] at hstop
      simpa [notSpace] using hstop

theorem extractToken_append {b w r : Bytes} (hb : IsBlank isspace b) (hw : IsWord isspace w)
    (hr : ∀ c, r.head? = some c → isspace c = true) :
    extractToken (b ++ (w ++ r)) = some (w,r) := by
  have hdrop := dropWhile_blank hb fun c hc => hw.head (r := r) hc
  have hsolid : ∀ c ∈ w, notSpace c = true := fun c hc => by simp [notSpace,hw.solid c hc]
  have htake : r.takeWhile notSpace = [] := by
    cases r with
    | nil => rfl
    | cons c r => simp [notSpace,hr c rfl]
  unfold extractToken
  split
  · rename_i heq
    rw [hdrop] at heq
    exact absurd (List.append_eq_nil_iff.mp heq).1 hw.nonempty
  · rename_i c cs heq
    rw [hdrop] at heq
    rw [← heq,List.takeWhile_append_of_pos hsolid,List.dropWhile_append_of_pos hsolid,htake]
    rw [List.append_nil]
    cases r with
    | nil => rfl
    | cons d r => simp [notSpace,hr d rfl]

theorem layout_extractTokens (fuel : Nat) (s : Bytes) (h : s.length ≤ fuel) :
    Layout isspace (extractTokens fuel s) s := by
  induction fuel generalizing s with
  | zero =>
    rw [List.length_eq_zero_iff.mp (Nat.le_zero.mp h)]
    exact .nil (by simp [IsBlank])
  | succ fuel ih =>
    cases he : extractToken s with
    | none =>
      simp only [extractTokens,he]
      exact .nil (extractToken_eq_none he)
    | some result =>
      obtain ⟨token,rest⟩ := result
      obtain ⟨hb,hs,hr⟩ := extractToken_eq_some he
      have hw := extractToken_isToken he
      have hlen : rest.length ≤ fuel := by
        have := congrArg List.length hs
        simp only [List.length_append] at this
        have := List.length_pos_iff.mpr hw.nonempty
        omega
      simp only [extractTokens,he]
      rw [hs]
      exact .cons hb (isToken_iff.mp hw) hr (ih rest hlen)

theorem extractTokens_of_layout {ws : List Bytes} {s : Bytes} (h : Layout isspace ws s)
    (fuel : Nat) (hf : s.length ≤ fuel) : extractTokens fuel s = ws := by
  induction h generalizing fuel with
  | @nil b hb =>
    cases fuel with
    | zero => rfl
    | succ fuel => simp [extractTokens,extractToken,List.dropWhile_eq_nil_iff.mpr hb]
  | @cons b w r ws hb hw hr _ ih =>
    have hpos := List.length_pos_iff.mpr hw.nonempty
    simp only [List.length_append] at hf
    cases fuel with
    | zero => omega
    | succ fuel =>
      simp only [extractTokens,extractToken_append hb hw hr]
      rw [ih fuel (by omega)]

theorem trim_spec (raw : Bytes) : ∃ lead trail, IsBlank isspace lead ∧ IsBlank isspace trail ∧
    raw = lead ++ (trim raw ++ trail) := by
  refine ⟨raw.takeWhile isspace,((raw.dropWhile isspace).reverse.takeWhile isspace).reverse,
    isBlank_takeWhile raw,?_,?_⟩
  · intro c hc
    exact isBlank_takeWhile _ c (List.mem_reverse.mp hc)
  · unfold trim
    rw [← List.reverse_append,List.takeWhile_append_dropWhile,List.reverse_reverse,
      List.takeWhile_append_dropWhile]

/-- The tokeniser is the grammar: a line has the tokens it can be derived from. -/
theorem tokenize_trim_iff (raw : Bytes) (ws : List Bytes) :
    tokenize (trim raw) = ws ↔ Layout isspace ws raw := by
  have hlayout : Layout isspace (tokenize (trim raw)) raw := by
    obtain ⟨lead,trail,hlead,htrail,hraw⟩ := trim_spec raw
    have hinner := layout_extractTokens (trim raw).length (trim raw) le_rfl
    have houter := (hinner.append htrail).prepend hlead
    rwa [← hraw] at houter
  constructor
  · intro h
    exact h ▸ hlayout
  · intro h
    have h₁ := extractTokens_of_layout hlayout raw.length le_rfl
    have h₂ := extractTokens_of_layout h raw.length le_rfl
    exact h₁.symm.trans h₂

theorem parseLine_of_layout {raw name : Bytes} {args : List Bytes}
    (h : Layout isspace (name :: args) raw) :
    parseLine raw = some ⟨commandTypeFromName name,name,args⟩ := by
  have htok := (tokenize_trim_iff raw _).mpr h
  have hne : trim raw ≠ [] := by
    intro h0
    rw [h0] at htok
    simp [tokenize,extractTokens] at htok
  simp only [parseLine,if_neg hne,htok]

theorem parseLine_of_blank {raw : Bytes} (h : IsBlank isspace raw) : parseLine raw = none := by
  have htok := (tokenize_trim_iff raw []).mpr (.nil h)
  unfold parseLine
  split
  · rfl
  · simp [htok]

theorem parseLine_eq_none_iff (raw : Bytes) : parseLine raw = none ↔ IsBlank isspace raw := by
  constructor
  · intro h
    have hlayout := (tokenize_trim_iff raw _).mp rfl
    cases hws : tokenize (trim raw) with
    | nil => exact layout_nil_iff.mp (hws ▸ hlayout)
    | cons name args =>
      rw [hws] at hlayout
      simp [parseLine_of_layout hlayout] at h
  · exact parseLine_of_blank

theorem parseLine_eq_some {raw : Bytes} {cmd : ParsedCommand} (h : parseLine raw = some cmd) :
    Layout isspace (cmd.name :: cmd.args) raw ∧ cmd.type = commandTypeFromName cmd.name := by
  have hlayout := (tokenize_trim_iff raw _).mp rfl
  cases hws : tokenize (trim raw) with
  | nil =>
    rw [hws] at hlayout
    rw [parseLine_of_blank (layout_nil_iff.mp hlayout)] at h
    cases h
  | cons name args =>
    rw [hws] at hlayout
    rw [parseLine_of_layout hlayout] at h
    cases h
    exact ⟨hlayout,rfl⟩

/-- A line written out: blanks, the first token, then blanks and a token each, then blanks. -/
def rendered (lead first : Bytes) (rest : List (Bytes × Bytes)) (trail : Bytes) : Bytes :=
  lead ++ (first ++ (rest.flatMap (fun p => p.1 ++ p.2) ++ trail))

theorem layout_rendered (rest : List (Bytes × Bytes)) (lead first trail : Bytes)
    (hlead : IsBlank isspace lead) (htrail : IsBlank isspace trail) (hfirst : IsToken first)
    (hrest : ∀ p ∈ rest, p.1 ≠ [] ∧ IsBlank isspace p.1 ∧ IsToken p.2) :
    Layout isspace (first :: rest.map Prod.snd) (rendered lead first rest trail) := by
  induction rest generalizing lead first with
  | nil =>
    refine .cons hlead (isToken_iff.mp hfirst) ?_ (.nil htrail)
    intro c hc
    exact htrail c (List.mem_of_mem_head? hc)
  | cons p rest ih =>
    obtain ⟨hne,hblank,htoken⟩ := hrest p (by simp)
    have hinner := ih p.1 p.2 hblank htoken fun q hq => hrest q (by simp [hq])
    refine .cons hlead (isToken_iff.mp hfirst) ?_ (by simpa [rendered] using hinner)
    intro c hc
    obtain ⟨d,ds,hd⟩ := List.exists_cons_of_ne_nil hne
    rw [List.flatMap_cons,hd] at hc
    simp only [List.cons_append,List.head?_cons,Option.some.injEq] at hc
    exact hblank c (by simp [hd,← hc])

def SameLetter (c d : UInt8) : Prop :=
  c = d ∨ (65 ≤ c.toNat ∧ c.toNat ≤ 90 ∧ d = c+32) ∨ (65 ≤ d.toNat ∧ d.toNat ≤ 90 ∧ c = d+32)

theorem toupper_lower {c : UInt8} (h : 65 ≤ c.toNat ∧ c.toNat ≤ 90) :
    toupper (c+32) = toupper c := by
  have hsum : (c+32).toNat = c.toNat+32 := by
    rw [UInt8.toNat_add]
    exact Nat.mod_eq_of_lt (by simp; omega)
  unfold toupper
  rw [if_pos (by omega),if_neg (by omega),UInt8.add_sub_cancel]

theorem SameLetter.toupper_eq {c d : UInt8} (h : SameLetter c d) : toupper c = toupper d := by
  rcases h with rfl | ⟨hlo,hhi,rfl⟩ | ⟨hlo,hhi,rfl⟩
  · rfl
  · exact (toupper_lower ⟨hlo,hhi⟩).symm
  · exact toupper_lower ⟨hlo,hhi⟩

theorem commandTypeFromName_congr {s t : Bytes} (h : List.Forall₂ SameLetter s t) :
    commandTypeFromName s = commandTypeFromName t := by
  have hupper : upper s = upper t := by
    induction h with
    | nil => rfl
    | cons hc _ ih =>
      simp only [upper,List.map_cons,hc.toupper_eq]
      exact congrArg _ ih
  simp only [commandTypeFromName,hupper]

/-- Only blank lines are refused; of any other line the name and the arguments are the maximal
runs of its bytes that are not blank. Every way to write out tokens is read back as them,
and the type of the command is that of its name, in either case of its letters. -/
theorem parseLine_token_lists :
    (∀ raw, parseLine raw = none ↔ ∀ c ∈ raw, isspace c = true) ∧
    (∀ raw cmd, parseLine raw = some cmd →
      AreMaximalRuns isspace raw (cmd.name :: cmd.args)) ∧
    (∀ lead first rest trail, IsBlank isspace lead → IsBlank isspace trail → IsToken first →
      (∀ p ∈ rest, p.1 ≠ [] ∧ IsBlank isspace p.1 ∧ IsToken p.2) →
      ∃ cmd, parseLine (rendered lead first rest trail) = some cmd ∧
        cmd.name :: cmd.args = first :: rest.map Prod.snd) ∧
    (∀ raw raw' cmd cmd', parseLine raw = some cmd → parseLine raw' = some cmd' →
      List.Forall₂ SameLetter cmd.name cmd'.name → cmd.type = cmd'.type) := by
  refine ⟨parseLine_eq_none_iff,?_,?_,?_⟩
  · intro raw cmd h
    exact (parseLine_eq_some h).1.areMaximalRuns
  · intro lead first rest trail hlead htrail hfirst hrest
    have hlayout := layout_rendered rest lead first trail hlead htrail hfirst hrest
    exact ⟨_,parseLine_of_layout hlayout,rfl⟩
  · intro raw raw' cmd cmd' h h' hsame
    rw [(parseLine_eq_some h).2,(parseLine_eq_some h').2]
    exact commandTypeFromName_congr hsame

end VoltDBX
