import VoltDBX.Runs
import Mathlib.Logic.Function.Basic

/-!
Programs that make calls on something they share, and clients that run such programs side by
side: a turn is one call of one client. Where each client has a part of the shared state that
its own calls alone can see and change, it gets what it would get without the others.
-/

set_option autoImplicit false

namespace Runs
variable {ε ι α β σ κ : Type} {R : ι → Type}

/-- A program ends with a value or an exception, or makes a call and goes on with what the
call returns. -/
inductive Program (ε : Type) {ι : Type} (R : ι → Type) (α : Type)
  | done (result : Except ε α)
  | call (i : ι) (next : R i → Program ε R α)

namespace Program

def bind : Program ε R α → (α → Program ε R β) → Program ε R β
  | .done (.ok a), f => f a
  | .done (.error x), _ => .done (.error x)
  | .call i next, f => .call i fun r => (next r).bind f

instance : Monad (Program ε R) where
  pure a := .done (.ok a)
  bind := bind

def perform (i : ι) : Program ε R (R i) := .call i fun r => .done (.ok r)

def run (exec : (i : ι) → σ → R i × σ) : Program ε R α → σ → EStateM.Result ε σ α
  | .done (.ok a) => fun s => .ok a s
  | .done (.error x) => fun s => .error x s
  | .call i next => fun s => (next (exec i s).1).run exec (exec i s).2

def Keeps (A : ι → Prop) : Program ε R α → Prop
  | .done _ => True
  | .call i next => A i ∧ ∀ r, (next r).Keeps A

variable {exec : (i : ι) → σ → R i × σ} {A : ι → Prop}

@[simp] theorem run_pure (a : α) (s : σ) : (pure a : Program ε R α).run exec s = .ok a s := rfl

@[simp] theorem run_ok (a : α) (s : σ) :
    (done (.ok a) : Program ε R α).run exec s = .ok a s := rfl

@[simp] theorem run_error (x : ε) (s : σ) :
    (done (.error x) : Program ε R α).run exec s = .error x s := rfl

@[simp] theorem run_bind (p : Program ε R α) (f : α → Program ε R β) (s : σ) :
    (p >>= f).run exec s =
      match p.run exec s with
      | .ok a t => (f a).run exec t
      | .error x t => .error x t := by
  induction p generalizing s with
  | done result =>
    cases result with
    | ok a => rfl
    | error x => rfl
  | call i next ih => exact ih (exec i s).1 (exec i s).2

theorem bind_assoc {γ : Type} (p : Program ε R α) (f : α → Program ε R β)
    (g : β → Program ε R γ) : (p >>= f) >>= g = p >>= fun a => f a >>= g := by
  induction p with
  | done result =>
    cases result with
    | ok a => rfl
    | error x => rfl
  | call i next ih => exact congrArg (call i) (funext ih)

theorem keeps_pure (a : α) : (pure a : Program ε R α).Keeps A := trivial

theorem keeps_perform {i : ι} (h : A i) : (perform i : Program ε R (R i)).Keeps A :=
  ⟨h,fun _ => trivial⟩

theorem Keeps.bind {p : Program ε R α} {f : α → Program ε R β} (hp : p.Keeps A)
    (hf : ∀ a, (f a).Keeps A) : (p >>= f).Keeps A := by
  induction p with
  | done result =>
    cases result with
    | ok a => exact hf a
    | error x => trivial
  | call i next ih => exact ⟨hp.1,fun r => ih r (hp.2 r)⟩

end Program

structure Clients (ε : Type) {ι : Type} (R : ι → Type) (α σ κ : Type) where
  shared : σ
  programs : κ → Program ε R α

namespace Clients
variable [DecidableEq κ]

def turn (exec : (i : ι) → σ → R i × σ) (c : κ) (s : Clients ε R α σ κ) :
    Option (Clients ε R α σ κ) :=
  match s.programs c with
  | .done _ => none
  | .call i next => some
      ⟨(exec i s.shared).2,Function.update s.programs c (next (exec i s.shared).1)⟩

variable {exec : (i : ι) → σ → R i × σ} {view : κ → σ → σ → Prop} {A : κ → ι → Prop}
variable {s t : Clients ε R α σ κ} {c : κ}

theorem turn_cases (h : turn exec c s = some t) :
    ∃ i next, s.programs c = .call i next ∧
      t = ⟨(exec i s.shared).2,Function.update s.programs c (next (exec i s.shared).1)⟩ := by
  unfold turn at h
  cases hp : s.programs c with
  | done result => simp [hp] at h
  | call i next =>
    rw [hp] at h
    exact ⟨i,next,rfl,(Option.some.inj h).symm⟩

/-- `view c` says that two states are the same to client `c`, and `A c` are the calls it may
make. -/
structure Local (exec : (i : ι) → σ → R i × σ) (view : κ → σ → σ → Prop) (A : κ → ι → Prop) :
    Prop where
  own : ∀ c i s s', A c i → view c s s' →
    (exec i s).1 = (exec i s').1 ∧ view c (exec i s).2 (exec i s').2
  other : ∀ c d i s s', A c i → c ≠ d → view d s s' → view d (exec i s).2 s'

/-- Whatever the turns were, what a client's program has still to do comes to what the whole
of it does alone. -/
theorem Local.alone (h : Local exec view A) {turns : List κ}
    (hkeeps : ∀ c, (s.programs c).Keeps (A c)) (hrun : Moves (turn exec) s turns t) {s' : σ}
    (hview : view c s.shared s') :
    ∃ t', view c t.shared t' ∧ (s.programs c).run exec s' = (t.programs c).run exec t' := by
  induction turns generalizing s s' with
  | nil =>
    cases moves_nil.mp hrun
    exact ⟨s',hview,rfl⟩
  | cons d turns ih =>
    obtain ⟨u,hu,hrest⟩ := moves_cons.mp hrun
    obtain ⟨i,next,hd,rfl⟩ := turn_cases hu
    have hcall := hkeeps d
    rw [hd] at hcall
    have hnext : ∀ e, (Function.update s.programs d (next (exec i s.shared).1) e).Keeps (A e) := by
      intro e
      by_cases he : e = d
      · subst he
        rw [Function.update_self]
        exact hcall.2 _
      · rw [Function.update_of_ne he]
        exact hkeeps e
    by_cases hdc : d = c
    · subst hdc
      obtain ⟨hreply,hviews⟩ := h.own d i s.shared s' hcall.1 hview
      obtain ⟨t',ht',hruns⟩ := ih hnext hrest hviews
      refine ⟨t',ht',?_⟩
      simp only [Function.update_self] at hruns
      rw [← hruns,hd,hreply]
      rfl
    · obtain ⟨t',ht',hruns⟩ := ih hnext hrest (h.other d c i s.shared s' hcall.1 hdc hview)
      refine ⟨t',ht',?_⟩
      simp only [Function.update_of_ne (Ne.symm hdc)] at hruns
      exact hruns

theorem exists_ended (exec : (i : ι) → σ → R i × σ) (s : Clients ε R α σ κ) (c : κ) :
    ∃ turns t, Moves (turn exec) s turns t ∧ (∃ result, t.programs c = .done result) ∧
      ∀ d, d ≠ c → t.programs d = s.programs d := by
  generalize hp : s.programs c = p
  induction p generalizing s with
  | done result => exact ⟨[],s,moves_nil.mpr rfl,⟨result,hp⟩,fun d _ => rfl⟩
  | call i next ih =>
    obtain ⟨turns,t,hrun,hdone,hothers⟩ := ih (exec i s.shared).1
      ⟨(exec i s.shared).2,Function.update s.programs c (next (exec i s.shared).1)⟩
      (Function.update_self c _ s.programs)
    refine ⟨c :: turns,t,moves_cons.mpr ⟨_,?_,hrun⟩,hdone,fun d hd => ?_⟩
    · simp only [turn,hp]
    · exact (hothers d hd).trans (Function.update_of_ne hd _ s.programs)

theorem exists_all_ended (exec : (i : ι) → σ → R i × σ) {s : Clients ε R α σ κ} {cs : List κ}
    (h : ∀ c, c ∉ cs → ∃ result, s.programs c = .done result) :
    ∃ turns t, Moves (turn exec) s turns t ∧ ∀ c, ∃ result, t.programs c = .done result := by
  induction cs generalizing s with
  | nil => exact ⟨[],s,moves_nil.mpr rfl,fun c => h c List.not_mem_nil⟩
  | cons d cs ih =>
    obtain ⟨turns,t,hrun,hd,hothers⟩ := exists_ended exec s d
    have hrest : ∀ c, c ∉ cs → ∃ result, t.programs c = .done result := by
      intro c hc
      by_cases hcd : c = d
      · exact hcd ▸ hd
      · rw [hothers c hcd]
        exact h c fun hmem => (List.mem_cons.mp hmem).elim hcd hc
    obtain ⟨more,u,hmore,hu⟩ := ih hrest
    exact ⟨turns ++ more,u,moves_append.mpr ⟨t,hrun,hmore⟩,hu⟩

theorem ended_moves {turns : List κ} (hrun : Moves (turn exec) s turns t) {result : Except ε α}
    (h : s.programs c = .done result) : t.programs c = .done result := by
  refine moves_invariant (I := fun u => u.programs c = .done result) (fun d _ u v hu hmove => ?_)
    h hrun
  obtain ⟨i,next,hd,rfl⟩ := turn_cases hmove
  have hne : c ≠ d := by
    intro heq
    rw [← heq,hu] at hd
    cases hd
  exact (Function.update_of_ne hne _ u.programs).trans hu

end Clients
end Runs
