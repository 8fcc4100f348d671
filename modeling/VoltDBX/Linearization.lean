import VoltDBX.Interleavings
import VoltDBX.Programs

/-!
Operations on something shared, each a program of calls, that clients invoke and wait for in
any interleaving. Where each operation takes effect at one moment between the two, the run has
an order of its operations in which one after the other they get the same answers, and which
keeps that of operations that did not overlap.
-/

set_option autoImplicit false

namespace Runs
variable {ω ε ι α σ τ κ : Type} {R : ι → Type}

/-- The answers of a client, what is left of the operation it waits for, and the operations to
come. -/
structure Caller (ω ε : Type) {ι : Type} (R : ι → Type) (α : Type) where
  answers : List α
  current : Option (Program ε R α)
  rest : List ω

structure Callers (ω ε : Type) {ι : Type} (R : ι → Type) (α σ κ : Type) where
  shared : σ
  callers : κ → Caller ω ε R α

def Caller.fresh (ops : List ω) : Caller ω ε R α := ⟨[],none,ops⟩

namespace Callers

inductive Event (κ : Type) where
  | invoke (c : κ)
  | call (c : κ)
  | answer (c : κ)
  deriving DecidableEq, Repr

section
variable [DecidableEq κ]

def step (prog : ω → Program ε R α) (exec : (i : ι) → σ → R i × σ) :
    Event κ → Callers ω ε R α σ κ → Option (Callers ω ε R α σ κ)
  | .invoke c, s =>
    match s.callers c with
    | ⟨answers,none,o :: rest⟩ => some
        ⟨s.shared,Function.update s.callers c ⟨answers,some (prog o),rest⟩⟩
    | _ => none
  | .call c, s =>
    match s.callers c with
    | ⟨answers,some (.call i next),rest⟩ => some
        ⟨(exec i s.shared).2,
          Function.update s.callers c ⟨answers,some (next (exec i s.shared).1),rest⟩⟩
    | _ => none
  | .answer c, s =>
    match s.callers c with
    | ⟨answers,some (.done (.ok a)),rest⟩ => some
        ⟨s.shared,Function.update s.callers c ⟨answers ++ [a],none,rest⟩⟩
    | _ => none

variable {prog : ω → Program ε R α} {exec : (i : ι) → σ → R i × σ}
variable {s u v : Callers ω ε R α σ κ} {c : κ}

theorem step_invoke (h : step prog exec (.invoke c) u = some v) :
    ∃ answers o rest, u.callers c = ⟨answers,none,o :: rest⟩ ∧
      v = ⟨u.shared,Function.update u.callers c ⟨answers,some (prog o),rest⟩⟩ := by
  simp only [step] at h
  split at h
  · rename_i answers o rest hc
    exact ⟨answers,o,rest,hc,(Option.some.inj h).symm⟩
  · cases h

theorem step_call (h : step prog exec (.call c) u = some v) :
    ∃ answers i next rest, u.callers c = ⟨answers,some (.call i next),rest⟩ ∧
      v = ⟨(exec i u.shared).2,
        Function.update u.callers c ⟨answers,some (next (exec i u.shared).1),rest⟩⟩ := by
  simp only [step] at h
  split at h
  · rename_i answers i next rest hc
    exact ⟨answers,i,next,rest,hc,(Option.some.inj h).symm⟩
  · cases h

theorem step_answer (h : step prog exec (.answer c) u = some v) :
    ∃ answers a rest, u.callers c = ⟨answers,some (.done (.ok a)),rest⟩ ∧
      v = ⟨u.shared,Function.update u.callers c ⟨answers ++ [a],none,rest⟩⟩ := by
  simp only [step] at h
  split at h
  · rename_i answers a rest hc
    exact ⟨answers,a,rest,hc,(Option.some.inj h).symm⟩
  · cases h

end
end Callers

/-- The answers to the operations one after the other, and the state they leave. -/
def serial (spec : ω → τ → α × τ) : List ω → τ → List α × τ
  | [], t => ([],t)
  | o :: os, t => ((spec o t).1 :: (serial spec os (spec o t).2).1,(serial spec os (spec o t).2).2)

theorem serial_append (spec : ω → τ → α × τ) (os more : List ω) (t : τ) :
    serial spec (os ++ more) t =
      ((serial spec os t).1 ++ (serial spec more (serial spec os t).2).1,
        (serial spec more (serial spec os t).2).2) := by
  induction os generalizing t with
  | nil => rfl
  | cons o os ih => simp only [List.cons_append,serial,ih]

theorem length_serial (spec : ω → τ → α × τ) (os : List ω) (t : τ) :
    (serial spec os t).1.length = os.length := by
  induction os generalizing t with
  | nil => rfl
  | cons o os ih => simp only [serial,List.length_cons,ih]

namespace Program
variable {exec : (i : ι) → σ → R i × σ} {spec : ω → τ → α × τ} {S : σ → τ → Prop}

def Settled (exec : (i : ι) → σ → R i × σ) (S : σ → τ → Prop) (a : α) : Program ε R α → Prop
  | .done result => result = .ok a
  | .call i next => ∀ s t, S s t → S (exec i s).2 t ∧ (next (exec i s).1).Settled exec S a

/-- One of the calls to come is the one at which `o` takes effect. -/
def Pending (exec : (i : ι) → σ → R i × σ) (spec : ω → τ → α × τ) (S : σ → τ → Prop) (o : ω) :
    Program ε R α → Prop
  | .done _ => False
  | .call i next => ∀ s t, S s t →
      S (exec i s).2 t ∧ (next (exec i s).1).Pending exec spec S o ∨
      S (exec i s).2 (spec o t).2 ∧ (next (exec i s).1).Settled exec S (spec o t).1

/-- The operation takes effect once, at a call or as soon as it is invoked. -/
def Atomic (exec : (i : ι) → σ → R i × σ) (spec : ω → τ → α × τ) (S : σ → τ → Prop) (o : ω)
    (p : Program ε R α) : Prop :=
  p.Pending exec spec S o ∨
    ∀ s t, S s t → S s (spec o t).2 ∧ p.Settled exec S (spec o t).1

/-- Run alone, an operation that has taken effect comes to its answer. -/
theorem Settled.returns {p : Program ε R α} {a : α} {s : σ} {t : τ} (h : p.Settled exec S a)
    (hS : S s t) : ∃ s', p.run exec s = .ok a s' ∧ S s' t := by
  induction p generalizing s with
  | done result =>
    obtain rfl : result = .ok a := h
    exact ⟨s,rfl,hS⟩
  | call i next ih =>
    obtain ⟨hrelated,hnext⟩ := h s t hS
    exact ih (exec i s).1 hnext hrelated

theorem Pending.returns {p : Program ε R α} {o : ω} {s : σ} {t : τ} (h : p.Pending exec spec S o)
    (hS : S s t) : ∃ s', p.run exec s = .ok (spec o t).1 s' ∧ S s' (spec o t).2 := by
  induction p generalizing s with
  | done result => exact absurd h not_false
  | call i next ih =>
    rcases h s t hS with ⟨hrelated,hnext⟩ | ⟨hrelated,hsettled⟩
    · exact ih (exec i s).1 hnext hrelated
    · exact hsettled.returns hrelated

end Program

section
variable [DecidableEq κ]

theorem outputsOf_append {client : ω → κ} {c : κ} {os more : List ω} {as bs : List α}
    (h : as.length = os.length) :
    outputsOf client c (os ++ more) (as ++ bs) =
      outputsOf client c os as ++ outputsOf client c more bs := by
  induction os generalizing as with
  | nil =>
    obtain rfl := List.length_eq_zero_iff.mp h
    rfl
  | cons o os ih =>
    cases as with
    | nil => cases h
    | cons a as =>
      have hlen : as.length = os.length := Nat.succ.inj h
      simp only [List.cons_append,outputsOf,ih hlen]
      split
      · rfl
      · rfl

/-- Where a client is, when those of its operations that have taken effect are `mine`, with
the answers `given`. -/
def Caller.Placed (exec : (i : ι) → σ → R i × σ) (spec : ω → τ → α × τ) (S : σ → τ → Prop)
    (ops mine : List ω) (given : List α) (caller : Caller ω ε R α) : Prop :=
  match caller.current with
  | none => mine ++ caller.rest = ops ∧ given = caller.answers
  | some p =>
    (∃ o, p.Pending exec spec S o ∧ mine ++ o :: caller.rest = ops ∧ given = caller.answers) ∨
    ∃ a, p.Settled exec S a ∧ mine ++ caller.rest = ops ∧ given = caller.answers ++ [a]

variable {exec : (i : ι) → σ → R i × σ} {spec : ω → τ → α × τ} {S : σ → τ → Prop}
variable {prog : ω → Program ε R α} {client : ω → κ} {ops : κ → List ω}

theorem Caller.Placed.between {all mine : List ω} {given : List α} {caller : Caller ω ε R α}
    (h : caller.Placed exec spec S all mine given) (hlen : given.length = mine.length) :
    caller.answers.length ≤ mine.length ∧ mine.length+caller.rest.length ≤ all.length := by
  unfold Caller.Placed at h
  split at h
  · obtain ⟨rfl,rfl⟩ := h
    rw [List.length_append]
    omega
  · rcases h with ⟨o,-,rfl,rfl⟩ | ⟨a,-,rfl,rfl⟩
    · rw [List.length_append,List.length_cons]
      omega
    · rw [List.length_append] at hlen ⊢
      omega

theorem Caller.Placed.beginnings {all mine : List ω} {given : List α} {caller : Caller ω ε R α}
    (h : caller.Placed exec spec S all mine given) :
    mine <+: all ∧ caller.answers <+: given ∧
      (caller.current = none → caller.answers = given ∧ mine ++ caller.rest = all) := by
  unfold Caller.Placed at h
  split at h
  · obtain ⟨hall,rfl⟩ := h
    exact ⟨⟨_,hall⟩,List.prefix_refl _,fun _ => ⟨rfl,hall⟩⟩
  · rename_i p hcurrent
    have hbusy : caller.current ≠ none := by simp [hcurrent]
    rcases h with ⟨o,-,hall,rfl⟩ | ⟨a,-,hall,rfl⟩
    · exact ⟨⟨_,hall⟩,List.prefix_refl _,fun hnone => absurd hnone hbusy⟩
    · exact ⟨⟨_,hall⟩,⟨[a],rfl⟩,fun hnone => absurd hnone hbusy⟩

theorem Caller.Placed.idle {mine : List ω} {given : List α} {caller : Caller ω ε R α}
    (h : caller.Placed exec spec S [] mine given) (hlen : given.length = mine.length) :
    caller.current = none ∧ caller.rest = [] := by
  unfold Caller.Placed at h
  split at h
  · rename_i hcurrent
    exact ⟨hcurrent,(List.append_eq_nil_iff.mp h.1).2⟩
  · rcases h with ⟨o,-,hall,-⟩ | ⟨a,-,hall,rfl⟩
    · simp at hall
    · rw [(List.append_eq_nil_iff.mp hall).1] at hlen
      simp at hlen

/-- `log` is the order in which operations have taken effect in the run from `s` to `u`. Of
each earlier state it has a beginning with what was answered by then and nothing that was
still to be invoked. -/
structure Linearized (prog : ω → Program ε R α) (exec : (i : ι) → σ → R i × σ)
    (spec : ω → τ → α × τ) (S : σ → τ → Prop) (client : ω → κ) (ops : κ → List ω) (t : τ)
    (s : Callers ω ε R α σ κ) (events : List (Callers.Event κ)) (u : Callers ω ε R α σ κ)
    (log : List ω) : Prop where
  related : S u.shared (serial spec log t).2
  placed : ∀ c, (u.callers c).Placed exec spec S (ops c) (inputsOf client c log)
    (outputsOf client c log (serial spec log t).1)
  timely : ∀ before after v, events = before ++ after →
    Moves (Callers.step prog exec) s before v →
    ∃ early late, log = early ++ late ∧ ∀ c,
      (v.callers c).answers.length ≤ (inputsOf client c early).length ∧
      (inputsOf client c early).length+(v.callers c).rest.length ≤ (ops c).length

theorem length_outputsOf {c : κ} {os : List ω} {as : List α} (h : as.length = os.length) :
    (outputsOf client c os as).length = (inputsOf client c os).length := by
  induction os generalizing as with
  | nil =>
    cases as with
    | nil => rfl
    | cons a as => cases h
  | cons o os ih =>
    cases as with
    | nil => cases h
    | cons a as =>
      have hlen : as.length = os.length := Nat.succ.inj h
      by_cases ho : client o = c
      · simp only [outputsOf,if_pos ho,inputsOf_cons_own ho,List.length_cons,ih hlen]
      · simp only [outputsOf,if_neg ho,inputsOf_cons_other ho,ih hlen]

theorem Linearized.extend {t : τ} {s u v : Callers ω ε R α σ κ} {events : List (Callers.Event κ)}
    {e : Callers.Event κ} {log new : List ω}
    (h : Linearized prog exec spec S client ops t s events u log)
    (hrun : Moves (Callers.step prog exec) s (events ++ [e]) v)
    (hrelated : S v.shared (serial spec (log ++ new) t).2)
    (hplaced : ∀ c, (v.callers c).Placed exec spec S (ops c) (inputsOf client c (log ++ new))
      (outputsOf client c (log ++ new) (serial spec (log ++ new) t).1)) :
    Linearized prog exec spec S client ops t s (events ++ [e]) v (log ++ new) := by
  refine ⟨hrelated,hplaced,fun before after w hsplit hw => ?_⟩
  rcases List.eq_nil_or_concat after with rfl | ⟨after',e',rfl⟩
  · rw [List.append_nil] at hsplit
    subst hsplit
    cases hrun.eq hw
    exact ⟨log ++ new,[],(List.append_nil _).symm,fun c =>
      (hplaced c).between (length_outputsOf (length_serial spec _ t))⟩
  · rw [List.concat_eq_append,← List.append_assoc] at hsplit
    obtain ⟨early,late,rfl,hcounts⟩ := h.timely before after' w (List.append_inj' hsplit rfl).1 hw
    exact ⟨early,late ++ new,List.append_assoc _ _ _,hcounts⟩

section
variable {t : τ} {s u v : Callers ω ε R α σ κ} {events : List (Callers.Event κ)}
variable {e : Callers.Event κ} {log : List ω} {c : κ}

theorem Linearized.pass (h : Linearized prog exec spec S client ops t s events u log)
    (hrun : Moves (Callers.step prog exec) s (events ++ [e]) v)
    (hrelated : S v.shared (serial spec log t).2)
    (hothers : ∀ d, d ≠ c → v.callers d = u.callers d)
    (hc : (v.callers c).Placed exec spec S (ops c) (inputsOf client c log)
      (outputsOf client c log (serial spec log t).1)) :
    Linearized prog exec spec S client ops t s (events ++ [e]) v log := by
  rw [← List.append_nil log] at hrelated
  have hplaced : ∀ d, (v.callers d).Placed exec spec S (ops d) (inputsOf client d (log ++ []))
      (outputsOf client d (log ++ []) (serial spec (log ++ []) t).1) := by
    intro d
    rw [List.append_nil]
    by_cases hd : d = c
    · subst hd
      exact hc
    · rw [hothers d hd]
      exact h.placed d
  have hext := h.extend hrun hrelated hplaced
  rwa [List.append_nil] at hext

theorem Linearized.effect (h : Linearized prog exec spec S client ops t s events u log)
    (hrun : Moves (Callers.step prog exec) s (events ++ [e]) v) {o : ω} (ho : client o = c)
    (hrelated : S v.shared (spec o (serial spec log t).2).2)
    (hothers : ∀ d, d ≠ c → v.callers d = u.callers d)
    (hc : (v.callers c).Placed exec spec S (ops c) (inputsOf client c log ++ [o])
      (outputsOf client c log (serial spec log t).1 ++ [(spec o (serial spec log t).2).1])) :
    Linearized prog exec spec S client ops t s (events ++ [e]) v (log ++ [o]) := by
  refine h.extend hrun ?_ fun d => ?_
  · rw [serial_append]
    exact hrelated
  · rw [serial_append,outputsOf_append (length_serial spec log t),inputsOf,List.filter_append]
    by_cases hd : d = c
    · subst hd
      simp only [serial,outputsOf,List.filter_cons,List.filter_nil,ho,if_true,decide_true]
      exact hc
    · have hne : client o ≠ d := fun heq => hd (heq.symm.trans ho)
      simp only [serial,outputsOf,List.filter_cons,List.filter_nil,hne,if_false,decide_false,
        Bool.false_eq_true,List.append_nil]
      rw [hothers d hd]
      exact h.placed d

variable (hatomic : ∀ c, ∀ o ∈ ops c, client o = c ∧ (prog o).Atomic exec spec S o)
include hatomic

theorem Linearized.invoke (h : Linearized prog exec spec S client ops t s events u log)
    (hrun : Moves (Callers.step prog exec) s (events ++ [.invoke c]) v)
    (hstep : Callers.step prog exec (.invoke c) u = some v) :
    ∃ new, Linearized prog exec spec S client ops t s (events ++ [.invoke c]) v (log ++ new) := by
  obtain ⟨answers,o,rest,hc,rfl⟩ := Callers.step_invoke hstep
  have hplaced := h.placed c
  rw [hc] at hplaced
  obtain ⟨hops,hgiven⟩ := hplaced
  dsimp only at hops hgiven
  have hothers : ∀ d, d ≠ c → Function.update u.callers c ⟨answers,some (prog o),rest⟩ d =
      u.callers d := fun d hd => Function.update_of_ne hd _ _
  obtain ⟨ho,hpending | hnow⟩ := hatomic c o (by rw [← hops]; simp)
  · refine ⟨[],?_⟩
    rw [List.append_nil]
    refine h.pass hrun h.related hothers ?_
    simp only [Function.update_self]
    exact Or.inl ⟨o,hpending,hops,hgiven⟩
  · obtain ⟨hrelated,hsettled⟩ := hnow _ _ h.related
    refine ⟨[o],h.effect hrun ho hrelated hothers ?_⟩
    simp only [Function.update_self]
    refine Or.inr ⟨_,hsettled,?_,by rw [hgiven]⟩
    rw [List.append_assoc]
    exact hops

theorem Linearized.call (h : Linearized prog exec spec S client ops t s events u log)
    (hrun : Moves (Callers.step prog exec) s (events ++ [.call c]) v)
    (hstep : Callers.step prog exec (.call c) u = some v) :
    ∃ new, Linearized prog exec spec S client ops t s (events ++ [.call c]) v (log ++ new) := by
  obtain ⟨answers,i,next,rest,hc,rfl⟩ := Callers.step_call hstep
  have hplaced := h.placed c
  rw [hc] at hplaced
  have hothers : ∀ d, d ≠ c → Function.update u.callers c
      ⟨answers,some (next (exec i u.shared).1),rest⟩ d = u.callers d :=
    fun d hd => Function.update_of_ne hd _ _
  rcases hplaced with ⟨o,hpending,hops,hgiven⟩ | ⟨a,hsettled,hops,hgiven⟩
  · dsimp only at hops hgiven
    rcases hpending _ _ h.related with ⟨hrelated,hlater⟩ | ⟨hrelated,hsettled⟩
    · refine ⟨[],?_⟩
      rw [List.append_nil]
      refine h.pass hrun hrelated hothers ?_
      simp only [Function.update_self]
      exact Or.inl ⟨o,hlater,hops,hgiven⟩
    · have ho := (hatomic c o (by rw [← hops]; simp)).1
      refine ⟨[o],h.effect hrun ho hrelated hothers ?_⟩
      simp only [Function.update_self]
      refine Or.inr ⟨_,hsettled,?_,by rw [hgiven]⟩
      rw [List.append_assoc]
      exact hops
  · obtain ⟨hrelated,hlater⟩ := hsettled _ _ h.related
    refine ⟨[],?_⟩
    rw [List.append_nil]
    refine h.pass hrun hrelated hothers ?_
    simp only [Function.update_self]
    exact Or.inr ⟨a,hlater,hops,hgiven⟩

omit hatomic in
theorem Linearized.answer (h : Linearized prog exec spec S client ops t s events u log)
    (hrun : Moves (Callers.step prog exec) s (events ++ [.answer c]) v)
    (hstep : Callers.step prog exec (.answer c) u = some v) :
    Linearized prog exec spec S client ops t s (events ++ [.answer c]) v log := by
  obtain ⟨answers,a,rest,hc,rfl⟩ := Callers.step_answer hstep
  have hplaced := h.placed c
  rw [hc] at hplaced
  rcases hplaced with ⟨o,hpending,-⟩ | ⟨b,hsettled,hops,hgiven⟩
  · exact absurd hpending not_false
  · have hb : a = b := by
      have heq : (Except.ok a : Except ε α) = .ok b := hsettled
      cases heq
      rfl
    subst hb
    refine h.pass hrun h.related (fun d hd => Function.update_of_ne hd _ _) ?_
    simp only [Function.update_self]
    exact ⟨hops,hgiven⟩

theorem exists_linearized (hstart : S s.shared t) (hfresh : ∀ c, s.callers c = .fresh (ops c))
    (hrun : Moves (Callers.step prog exec) s events u) :
    ∃ log, Linearized prog exec spec S client ops t s events u log := by
  refine moves_history (I := fun js w => ∃ log, Linearized prog exec spec S client ops t s js w log)
    ⟨[],hstart,fun c => ?_,fun before after w hsplit hw => ?_⟩ (fun js e w x hw h hstep => ?_) hrun
  · rw [hfresh]
    exact ⟨rfl,rfl⟩
  · obtain ⟨rfl,-⟩ := List.append_eq_nil_iff.mp hsplit.symm
    cases moves_nil.mp hw
    refine ⟨[],[],rfl,fun c => ?_⟩
    rw [hfresh]
    exact ⟨Nat.le_refl _,by simp [Caller.fresh,inputsOf]⟩
  · obtain ⟨log,h⟩ := h
    have hrun' : Moves (Callers.step prog exec) s (js ++ [e]) x :=
      moves_append.mpr ⟨w,hw,moves_cons.mpr ⟨x,hstep,moves_nil.mpr rfl⟩⟩
    cases e with
    | invoke c =>
      obtain ⟨new,hnew⟩ := h.invoke hatomic hrun' hstep
      exact ⟨_,hnew⟩
    | call c =>
      obtain ⟨new,hnew⟩ := h.call hatomic hrun' hstep
      exact ⟨_,hnew⟩
    | answer c => exact ⟨log,h.answer hrun' hstep⟩

end

/-- What the client has begun, and all it has still to do, comes to an answer. -/
def Caller.Ready (prog : ω → Program ε R α) (exec : (i : ι) → σ → R i × σ) (spec : ω → τ → α × τ)
    (S : σ → τ → Prop) (caller : Caller ω ε R α) : Prop :=
  (∀ o ∈ caller.rest, (prog o).Atomic exec spec S o) ∧ ∀ p, caller.current = some p →
    (∃ o, p.Pending exec spec S o) ∨ ∃ a, p.Settled exec S a

section
variable {t : τ} {u : Callers ω ε R α σ κ} {c : κ} {answers : List α} {rest : List ω}

theorem exists_answer {p : Program ε R α}
    (hp : (∃ o, p.Pending exec spec S o) ∨ ∃ a, p.Settled exec S a) (hS : S u.shared t)
    (hc : u.callers c = ⟨answers,some p,rest⟩) :
    ∃ more v t' a, Moves (Callers.step prog exec) u more v ∧ S v.shared t' ∧
      v.callers c = ⟨answers ++ [a],none,rest⟩ ∧ ∀ d, d ≠ c → v.callers d = u.callers d := by
  induction p generalizing u t with
  | done result =>
    obtain ⟨a,rfl⟩ : ∃ a, result = .ok a := by
      rcases hp with ⟨o,hpending⟩ | hsettled
      · exact absurd hpending not_false
      · exact hsettled
    refine ⟨[.answer c],⟨u.shared,Function.update u.callers c ⟨answers ++ [a],none,rest⟩⟩,t,a,
      moves_cons.mpr ⟨_,?_,moves_nil.mpr rfl⟩,hS,Function.update_self c _ u.callers,
      fun d hd => Function.update_of_ne hd _ _⟩
    simp only [Callers.step,hc]
  | call i next ih =>
    obtain ⟨t',hS',hnext⟩ : ∃ t', S (exec i u.shared).2 t' ∧
        ((∃ o, (next (exec i u.shared).1).Pending exec spec S o) ∨
          ∃ a, (next (exec i u.shared).1).Settled exec S a) := by
      rcases hp with ⟨o,hpending⟩ | ⟨a,hsettled⟩
      · rcases hpending _ _ hS with ⟨hrelated,hlater⟩ | ⟨hrelated,hsettled⟩
        · exact ⟨t,hrelated,Or.inl ⟨o,hlater⟩⟩
        · exact ⟨_,hrelated,Or.inr ⟨_,hsettled⟩⟩
      · obtain ⟨hrelated,hlater⟩ := hsettled _ _ hS
        exact ⟨t,hrelated,Or.inr ⟨a,hlater⟩⟩
    obtain ⟨more,v,t'',a,hrun,hrelated,hv,hothers⟩ := @ih _ t'
      ⟨(exec i u.shared).2,
        Function.update u.callers c ⟨answers,some (next (exec i u.shared).1),rest⟩⟩
      hnext hS' (Function.update_self c _ u.callers)
    refine ⟨.call c :: more,v,t'',a,moves_cons.mpr ⟨_,?_,hrun⟩,hrelated,hv,fun d hd => ?_⟩
    · simp only [Callers.step,hc]
    · exact (hothers d hd).trans (Function.update_of_ne hd _ _)

theorem exists_rest_answered (hS : S u.shared t) (hready : (u.callers c).Ready prog exec spec S) :
    ∃ more v t', Moves (Callers.step prog exec) u more v ∧ S v.shared t' ∧
      ((v.callers c).current = none ∧ (v.callers c).rest = []) ∧
      ∀ d, d ≠ c → v.callers d = u.callers d := by
  have hidle : ∀ (rest : List ω) (u : Callers ω ε R α σ κ) (t : τ) (answers : List α),
      S u.shared t → u.callers c = ⟨answers,none,rest⟩ →
      (∀ o ∈ rest, (prog o).Atomic exec spec S o) →
      ∃ more v t', Moves (Callers.step prog exec) u more v ∧ S v.shared t' ∧
        ((v.callers c).current = none ∧ (v.callers c).rest = []) ∧
        ∀ d, d ≠ c → v.callers d = u.callers d := by
    intro rest
    induction rest with
    | nil =>
      intro u t answers hS hc _
      exact ⟨[],u,t,moves_nil.mpr rfl,hS,by rw [hc]; exact ⟨rfl,rfl⟩,fun d _ => rfl⟩
    | cons o rest ih =>
      intro u t answers hS hc hall
      have hbegun : ∃ t', S u.shared t' ∧
          ((∃ o', (prog o).Pending exec spec S o') ∨ ∃ a, (prog o).Settled exec S a) := by
        rcases hall o (by simp) with hpending | hnow
        · exact ⟨t,hS,Or.inl ⟨o,hpending⟩⟩
        · obtain ⟨hrelated,hsettled⟩ := hnow _ _ hS
          exact ⟨_,hrelated,Or.inr ⟨_,hsettled⟩⟩
      obtain ⟨t',hS',hp⟩ := hbegun
      obtain ⟨more,v,t'',a,hrun,hrelated,hv,hothers⟩ := @exists_answer _ _ _ _ _ _ _ _ _ exec spec S
        prog t' ⟨u.shared,Function.update u.callers c ⟨answers,some (prog o),rest⟩⟩ c answers rest _
        hp hS' (Function.update_self c _ u.callers)
      obtain ⟨more',w,t₃,hrun',hrelated',hw,hothers'⟩ := ih v t'' _ hrelated hv
        fun o' ho' => hall o' (by simp [ho'])
      refine ⟨.invoke c :: (more ++ more'),w,t₃,moves_cons.mpr
        ⟨_,?_,moves_append.mpr ⟨v,hrun,hrun'⟩⟩,hrelated',hw,fun d hd => ?_⟩
      · simp only [Callers.step,hc]
      · exact (hothers' d hd).trans ((hothers d hd).trans (Function.update_of_ne hd _ _))
  obtain ⟨hall,hcurrent⟩ := hready
  cases hc : u.callers c with
  | mk answers current rest =>
    rw [hc] at hall hcurrent
    cases current with
    | none => exact hidle rest u t answers hS hc hall
    | some p =>
      obtain ⟨more,v,t',a,hrun,hrelated,hv,hothers⟩ := exists_answer (hcurrent p rfl) hS hc
      obtain ⟨more',w,t'',hrun',hrelated',hw,hothers'⟩ := hidle rest v t' _ hrelated hv hall
      exact ⟨more ++ more',w,t'',moves_append.mpr ⟨v,hrun,hrun'⟩,hrelated',hw,
        fun d hd => (hothers' d hd).trans (hothers d hd)⟩

theorem exists_all_answered {cs : List κ} (hS : S u.shared t)
    (hready : ∀ c, (u.callers c).Ready prog exec spec S)
    (hidle : ∀ c, c ∉ cs → (u.callers c).current = none ∧ (u.callers c).rest = []) :
    ∃ more v, Moves (Callers.step prog exec) u more v ∧
      ∀ c, (v.callers c).current = none ∧ (v.callers c).rest = [] := by
  induction cs generalizing u t with
  | nil => exact ⟨[],u,moves_nil.mpr rfl,fun c => hidle c List.not_mem_nil⟩
  | cons c cs ih =>
    obtain ⟨more,v,t',hrun,hrelated,hc,hothers⟩ := exists_rest_answered hS (hready c)
    have hleft : ∀ d, d ∉ cs → (v.callers d).current = none ∧ (v.callers d).rest = [] := by
      intro d hd
      by_cases hdc : d = c
      · exact hdc ▸ hc
      · rw [hothers d hdc]
        exact hidle d fun hmem => (List.mem_cons.mp hmem).elim hdc hd
    have hready' : ∀ d, (v.callers d).Ready prog exec spec S := by
      intro d
      by_cases hdc : d = c
      · subst hdc
        refine ⟨fun o ho => ?_,fun p hp => ?_⟩
        · rw [hc.2] at ho
          cases ho
        · rw [hc.1] at hp
          cases hp
      · rw [hothers d hdc]
        exact hready d
    obtain ⟨more',w,hrun',hw⟩ := ih hrelated hready' hleft
    exact ⟨more ++ more',w,moves_append.mpr ⟨v,hrun,hrun'⟩,hw⟩

end

theorem Linearized.ready {t : τ} {s u : Callers ω ε R α σ κ} {events : List (Callers.Event κ)}
    {log : List ω} (hatomic : ∀ c, ∀ o ∈ ops c, client o = c ∧ (prog o).Atomic exec spec S o)
    (h : Linearized prog exec spec S client ops t s events u log) (c : κ) :
    (u.callers c).Ready prog exec spec S := by
  have hplaced := h.placed c
  unfold Caller.Placed at hplaced
  cases hcurrent : (u.callers c).current with
  | none =>
    rw [hcurrent] at hplaced
    refine ⟨fun o ho => (hatomic c o ?_).2,fun p hp => ?_⟩
    · rw [← hplaced.1]
      exact List.mem_append_right _ ho
    · rw [hcurrent] at hp
      cases hp
  | some p =>
    rw [hcurrent] at hplaced
    refine ⟨fun o ho => (hatomic c o ?_).2,fun p' hp => ?_⟩
    · rcases hplaced with ⟨o',-,hops,-⟩ | ⟨a,-,hops,-⟩
      · rw [← hops]
        simp [ho]
      · rw [← hops]
        exact List.mem_append_right _ ho
    · rw [hcurrent] at hp
      cases hp
      rcases hplaced with ⟨o',hpending,-⟩ | ⟨a,hsettled,-⟩
      · exact Or.inl ⟨o',hpending⟩
      · exact Or.inr ⟨a,hsettled⟩

end
end Runs
