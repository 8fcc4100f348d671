import Mathlib.Data.List.Forall2
import Mathlib.Data.List.Induction

/-!
Runs of a machine that reads inputs one after the other and may stop with an
exception: what holds along a run, and what a run keeps.
-/

set_option autoImplicit false

namespace Runs
variable {ε σ ι ο α : Type}

/-- The outputs for a list of inputs; an exception ends the run. -/
def runAll (step : ι → EStateM ε σ ο) : List ι → EStateM ε σ (List ο)
  | [] => pure []
  | i :: is => do
    let o ← step i
    let os ← runAll step is
    return o :: os

def Along (step : ι → EStateM ε σ ο) (P : σ → ι → Prop) (s : σ) : List ι → Prop
  | [] => True
  | i :: is => P s i ∧ ∀ o t, (step i).run s = .ok o t → Along step P t is

variable {step : ι → EStateM ε σ ο} {P : σ → ι → Prop}

theorem runAll_cons {i : ι} {is : List ι} {s u : σ} {os : List ο} :
    (runAll step (i :: is)).run s = .ok os u ↔
      ∃ o t rest, (step i).run s = .ok o t ∧ (runAll step is).run t = .ok rest u ∧
        os = o :: rest := by
  simp only [runAll,EStateM.run_bind]
  cases hs : (step i).run s with
  | error x t => simp
  | ok o t =>
    simp only [EStateM.Result.ok.injEq]
    cases hr : (runAll step is).run t with
    | error x v =>
      constructor
      · intro h
        simp at h
      · rintro ⟨o',t',rest,⟨rfl,rfl⟩,h,-⟩
        simp [hr] at h
    | ok rest v =>
      constructor
      · intro h
        simp only [EStateM.run_pure,EStateM.Result.ok.injEq] at h
        exact ⟨o,t,rest,⟨rfl,rfl⟩,by rw [hr,h.2],h.1.symm⟩
      · rintro ⟨o',t',rest',⟨rfl,rfl⟩,h,rfl⟩
        rw [hr] at h
        cases h
        simp

theorem along_append {as bs : List ι} {s : σ} :
    Along step P s (as ++ bs) ↔ Along step P s as ∧
      ∀ os t, (runAll step as).run s = .ok os t → Along step P t bs := by
  induction as generalizing s with
  | nil =>
    constructor
    · intro h
      refine ⟨trivial,fun os t hrun => ?_⟩
      cases hrun
      exact h
    · rintro ⟨-,h⟩
      exact h [] s rfl
  | cons i as ih =>
    simp only [List.cons_append,Along,ih]
    constructor
    · rintro ⟨hi,h⟩
      refine ⟨⟨hi,fun o t hr => (h o t hr).1⟩,fun os u hrun => ?_⟩
      obtain ⟨o,t,rest,hr,hrest,-⟩ := runAll_cons.mp hrun
      exact (h o t hr).2 rest u hrest
    · rintro ⟨⟨hi,h⟩,hbs⟩
      exact ⟨hi,fun o t hr => ⟨h o t hr,fun rest u hrest =>
        hbs (o :: rest) u (runAll_cons.mpr ⟨o,t,rest,hr,hrest,rfl⟩)⟩⟩

theorem runAll_returns_iff (hstep : ∀ s i, (∃ o t, (step i).run s = .ok o t) ↔ P s i)
    (is : List ι) (s : σ) :
    (∃ os t, (runAll step is).run s = .ok os t) ↔ Along step P s is := by
  induction is generalizing s with
  | nil => exact ⟨fun _ => trivial,fun _ => ⟨[],s,rfl⟩⟩
  | cons i is ih =>
    simp only [Along,← hstep]
    constructor
    · rintro ⟨os,u,hrun⟩
      obtain ⟨o,t,rest,hi,hrest,-⟩ := runAll_cons.mp hrun
      refine ⟨⟨o,t,hi⟩,fun o' t' hi' => ?_⟩
      rw [hi] at hi'
      cases hi'
      exact (ih t).mp ⟨rest,u,hrest⟩
    · rintro ⟨⟨o,t,hi⟩,hnext⟩
      obtain ⟨rest,u,hrest⟩ := (ih t).mpr (hnext o t hi)
      exact ⟨o :: rest,u,runAll_cons.mpr ⟨o,t,rest,hi,hrest,rfl⟩⟩

/-- A relation to an abstract state that every step keeps holds after the run. -/
theorem runAll_simulates {R : σ → α → Prop} {next : α → ι → α}
    (hstep : ∀ s a i o t, R s a → P s i → (step i).run s = .ok o t → R t (next a i))
    {is : List ι} {s t : σ} {a : α} {os : List ο} (hR : R s a) (hP : Along step P s is)
    (hrun : (runAll step is).run s = .ok os t) : R t (is.foldl next a) := by
  induction is generalizing s a os with
  | nil =>
    cases hrun
    exact hR
  | cons i is ih =>
    obtain ⟨o,u,rest,hi,hrest,-⟩ := runAll_cons.mp hrun
    exact ih (hstep s a i o u hR hP.1 hi) (hP.2 o u hi) hrest

theorem along_of_forall {is : List ι} (h : ∀ i ∈ is, ∀ s, P s i) (s : σ) : Along step P s is := by
  induction is generalizing s with
  | nil => trivial
  | cons i is ih =>
    exact ⟨h i (by simp) s,fun _ t _ => ih (fun j hj => h j (by simp [hj])) t⟩

theorem runAll_keeps {I : σ → Prop}
    (hstep : ∀ s i o t, I s → P s i → (step i).run s = .ok o t → I t)
    {is : List ι} {s t : σ} {os : List ο} (hI : I s) (hP : Along step P s is)
    (hrun : (runAll step is).run s = .ok os t) : I t :=
  @runAll_simulates ε σ ι ο Unit step P (fun s _ => I s) (fun a _ => a)
    (fun s _ i o t => hstep s i o t) is s t () os hI hP hrun

section
variable {τ κ π : Type}

/-- Both went through, with related outputs and states, or both raised, in states
related by `E`. -/
def Coupled (E S : σ → τ → Prop) (R : ο → π → Prop) :
    EStateM.Result ε σ ο → EStateM.Result ε τ π → Prop
  | .ok o s, .ok p t => R o p ∧ S s t
  | .error _ s, .error _ t => E s t
  | _, _ => False

abbrev Paired (S : σ → τ → Prop) (R : ο → π → Prop) :
    EStateM.Result ε σ ο → EStateM.Result ε τ π → Prop := Coupled (fun _ _ => True) S R

variable {E S : σ → τ → Prop} {R : ο → π → Prop}

theorem Coupled.of_ok {r : EStateM.Result ε σ ο} {q : EStateM.Result ε τ π} (h : Coupled E S R r q)
    {o : ο} {s : σ} (hr : r = .ok o s) : ∃ p t, q = .ok p t ∧ R o p ∧ S s t := by
  subst hr
  cases q with
  | ok p t => exact ⟨p,t,rfl,h⟩
  | error x t => exact absurd h not_false

theorem Coupled.mono {E' S' : σ → τ → Prop} {R' : ο → π → Prop} {r : EStateM.Result ε σ ο}
    {q : EStateM.Result ε τ π} (h : Coupled E S R r q) (hE : ∀ s t, E s t → E' s t)
    (hS : ∀ s t, S s t → S' s t) (hR : ∀ o p, R o p → R' o p) : Coupled E' S' R' r q := by
  cases r with
  | ok o s =>
    obtain ⟨p,t,rfl,ho,hs⟩ := h.of_ok rfl
    exact ⟨hR o p ho,hS s t hs⟩
  | error x s =>
    cases q with
    | ok p t => exact absurd h not_false
    | error y t => exact hE s t h

theorem Coupled.bind {S' : σ → τ → Prop} {ο' π' : Type} {R' : ο' → π' → Prop} {x : EStateM ε σ ο}
    {y : EStateM ε τ π} {f : ο → EStateM ε σ ο'} {g : π → EStateM ε τ π'} {s : σ} {t : τ}
    (hfirst : Coupled E S R (x.run s) (y.run t))
    (hrest : ∀ o p u v, x.run s = .ok o u → y.run t = .ok p v → R o p → S u v →
      Coupled E S' R' ((f o).run u) ((g p).run v)) :
    Coupled E S' R' ((x >>= f).run s) ((y >>= g).run t) := by
  rw [EStateM.run_bind,EStateM.run_bind]
  cases hx : x.run s with
  | error e u =>
    cases hy : y.run t with
    | error e' v =>
      rw [hx,hy] at hfirst
      exact hfirst
    | ok p v =>
      rw [hx,hy] at hfirst
      exact absurd hfirst not_false
  | ok o u =>
    obtain ⟨p,v,hy,ho,huv⟩ := hfirst.of_ok hx
    rw [hy]
    exact hrest o p u v hx hy ho huv

theorem Coupled.runAll_cons {S' : σ → τ → Prop} {step : ι → EStateM ε σ ο}
    {step' : κ → EStateM ε τ π} {i : ι} {is : List ι} {j : κ} {js : List κ} {s : σ} {t : τ}
    (hfirst : Coupled E S R ((step i).run s) ((step' j).run t))
    (hrest : ∀ o p u v, (step i).run s = .ok o u → (step' j).run t = .ok p v → S u v →
      Coupled E S' (List.Forall₂ R) ((runAll step is).run u) ((runAll step' js).run v)) :
    Coupled E S' (List.Forall₂ R) ((runAll step (i :: is)).run s)
      ((runAll step' (j :: js)).run t) := by
  rw [runAll,runAll]
  refine hfirst.bind fun o p u v hi hj ho huv => ?_
  exact (hrest o p u v hi hj huv).bind fun os ps w z _ _ hos hwz => ⟨.cons ho hos,hwz⟩

end

def enabled (f : σ → Option σ) : EStateM Unit σ Unit := fun s =>
  match f s with
  | none => .error () s
  | some t => .ok () t

theorem run_enabled {f : σ → Option σ} {s t : σ} {o : Unit} :
    (enabled f).run s = .ok o t ↔ f s = some t := by
  have hrun : (enabled f).run s =
      match f s with
      | none => .error () s
      | some t => .ok () t := rfl
  rw [hrun]
  cases f s with
  | none => simp
  | some u => simp

/-- All steps of the list were enabled, one after the other, and lead from `s` to `t`. -/
def Moves (step : ι → σ → Option σ) (s : σ) (is : List ι) (t : σ) : Prop :=
  ∃ os, (runAll (fun i => enabled (step i)) is).run s = .ok os t

variable {move : ι → σ → Option σ}

theorem moves_nil {s t : σ} : Moves move s [] t ↔ s = t := by
  constructor
  · intro ⟨os,h⟩
    cases h
    rfl
  · intro h
    exact ⟨[],by rw [h]; rfl⟩

theorem moves_cons {i : ι} {is : List ι} {s u : σ} :
    Moves move s (i :: is) u ↔ ∃ t, move i s = some t ∧ Moves move t is u := by
  constructor
  · intro ⟨os,h⟩
    obtain ⟨o,t,rest,hi,hrest,-⟩ := runAll_cons.mp h
    exact ⟨t,run_enabled.mp hi,rest,hrest⟩
  · intro ⟨t,hi,rest,hrest⟩
    exact ⟨() :: rest,runAll_cons.mpr ⟨(),t,rest,run_enabled.mpr hi,hrest,rfl⟩⟩

theorem moves_append {is js : List ι} {s u : σ} :
    Moves move s (is ++ js) u ↔ ∃ t, Moves move s is t ∧ Moves move t js u := by
  induction is generalizing s with
  | nil => simp [moves_nil]
  | cons i is ih =>
    simp only [List.cons_append,moves_cons,ih]
    constructor
    · intro ⟨t,hi,v,his,hjs⟩
      exact ⟨v,⟨t,hi,his⟩,hjs⟩
    · intro ⟨v,⟨t,hi,his⟩,hjs⟩
      exact ⟨t,hi,v,his,hjs⟩

theorem moves_iff_foldlM {is : List ι} {s t : σ} :
    Moves move s is t ↔ is.foldlM (fun u i => move i u) s = some t := by
  induction is generalizing s with
  | nil => simp [moves_nil]
  | cons i is ih =>
    rw [moves_cons,List.foldlM_cons]
    cases move i s with
    | none => simp
    | some u => simp [ih]

theorem Moves.eq {is : List ι} {s t u : σ} (ht : Moves move s is t) (hu : Moves move s is u) :
    t = u := by
  rw [moves_iff_foldlM] at ht hu
  rw [ht] at hu
  exact Option.some.inj hu

def AlongMoves (step : ι → σ → Option σ) (P : σ → ι → Prop) (s : σ) (is : List ι) : Prop :=
  Along (fun i => enabled (step i)) P s is

theorem AlongMoves.head {i : ι} {is : List ι} {s : σ} (h : AlongMoves move P s (i :: is)) :
    P s i := h.1

theorem AlongMoves.tail {i : ι} {is : List ι} {s t : σ} (h : AlongMoves move P s (i :: is))
    (hi : move i s = some t) : AlongMoves move P t is := h.2 () t (run_enabled.mpr hi)

theorem alongMoves_cons {i : ι} {is : List ι} {s t : σ} (hi : move i s = some t)
    (hP : P s i) (hrest : AlongMoves move P t is) : AlongMoves move P s (i :: is) := by
  refine ⟨hP,fun o u hu => ?_⟩
  have heq := run_enabled.mp hu
  rw [hi,Option.some.injEq] at heq
  exact heq ▸ hrest

theorem alongMoves_append {is js : List ι} {s : σ} :
    AlongMoves move P s (is ++ js) ↔ AlongMoves move P s is ∧
      ∀ t, Moves move s is t → AlongMoves move P t js := by
  rw [AlongMoves,along_append]
  constructor
  · intro ⟨his,hjs⟩
    exact ⟨his,fun t ⟨os,hrun⟩ => hjs os t hrun⟩
  · intro ⟨his,hjs⟩
    exact ⟨his,fun os t hrun => hjs t ⟨os,hrun⟩⟩

theorem moves_keeps {I : σ → Prop} {is : List ι} {s t : σ}
    (hstep : ∀ i ∈ is, ∀ u v, I u → P u i → move i u = some v → I v) (hI : I s)
    (hP : AlongMoves move P s is) (hmoves : Moves move s is t) : I t := by
  induction is generalizing s with
  | nil => exact moves_nil.mp hmoves ▸ hI
  | cons i is ih =>
    obtain ⟨u,hi,hrest⟩ := moves_cons.mp hmoves
    have hu : I u := hstep i (by simp) s u hI hP.head hi
    exact ih (fun j hj => hstep j (by simp [hj])) hu (hP.tail hi) hrest

theorem moves_invariant {I : σ → Prop} {is : List ι} {s t : σ}
    (hstep : ∀ i ∈ is, ∀ u v, I u → move i u = some v → I v) (hI : I s)
    (hmoves : Moves move s is t) : I t := by
  have hany : AlongMoves move (fun _ _ => True) s is := along_of_forall (fun _ _ _ => trivial) s
  exact moves_keeps (fun i hi u v hu _ => hstep i hi u v hu) hI hany hmoves

theorem moves_history {I : List ι → σ → Prop} {is : List ι} {s t : σ} (hI : I [] s)
    (hstep : ∀ js i u v, Moves move s js u → I js u → move i u = some v → I (js ++ [i]) v)
    (hmoves : Moves move s is t) : I is t := by
  induction is using List.reverseRecOn generalizing t with
  | nil => exact moves_nil.mp hmoves ▸ hI
  | append_singleton js i ih =>
    obtain ⟨u,hu,hlast⟩ := moves_append.mp hmoves
    obtain ⟨v,hv,hend⟩ := moves_cons.mp hlast
    exact moves_nil.mp hend ▸ hstep js i u v hu (ih hu) hv

def Visits (step : ι → σ → Option σ) (P : σ → Prop) (s : σ) (is : List ι) : Prop :=
  ∃ js rest u, is = js ++ rest ∧ Moves step s js u ∧ P u

theorem visits_end {P : σ → Prop} {is : List ι} {s t : σ} (h : Moves move s is t) (hP : P t) :
    Visits move P s is := ⟨is,[],t,(List.append_nil is).symm,h,hP⟩

theorem Visits.append {P : σ → Prop} {is : List ι} {s : σ} (h : Visits move P s is)
    (more : List ι) : Visits move P s (is ++ more) := by
  obtain ⟨js,rest,u,rfl,hu,hP⟩ := h
  exact ⟨js,rest ++ more,u,List.append_assoc js rest more,hu,hP⟩

def Throughout (step : ι → σ → Option σ) (P : σ → Prop) (s : σ) (is : List ι) : Prop :=
  ∀ js rest u, is = js ++ rest → Moves step s js u → P u

theorem Throughout.end {P : σ → Prop} {is : List ι} {s t : σ} (h : Throughout move P s is)
    (hrun : Moves move s is t) : P t := h is [] t (List.append_nil is).symm hrun

theorem Throughout.of_append {P : σ → Prop} {is more : List ι} {s : σ}
    (h : Throughout move P s (is ++ more)) : Throughout move P s is := by
  rintro js rest u rfl hu
  exact h js (rest ++ more) u (List.append_assoc js rest more) hu

/-- Where every state that is not a goal has a step that brings it nearer to one, a goal is
reached. -/
theorem exists_moves {ρ : Type} {nearer : ρ → ρ → Prop} (hwf : WellFounded nearer) (rank : σ → ρ)
    {I G : σ → Prop} {A : ι → Prop}
    (hstep : ∀ s, I s → G s ∨
      ∃ i t, A i ∧ move i s = some t ∧ I t ∧ nearer (rank t) (rank s))
    {s : σ} (hs : I s) :
    ∃ is t, (∀ i ∈ is, A i) ∧ Moves move s is t ∧ I t ∧ G t := by
  generalize hrank : rank s = n
  induction n using hwf.induction generalizing s with
  | h n ih =>
    rcases hstep s hs with hgoal | ⟨i,t,hi,hmove,ht,hnearer⟩
    · exact ⟨[],s,fun i hi => absurd hi List.not_mem_nil,moves_nil.mpr rfl,hs,hgoal⟩
    · obtain ⟨is,u,his,hrest,hu⟩ := ih (rank t) (hrank ▸ hnearer) ht rfl
      refine ⟨i :: is,u,?_,moves_cons.mpr ⟨t,hmove,hrest⟩,hu⟩
      intro j hj
      rcases List.mem_cons.mp hj with rfl | hj
      · exact hi
      · exact his j hj

end Runs
