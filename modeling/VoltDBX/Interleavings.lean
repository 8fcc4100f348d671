import VoltDBX.Runs

/-!
Clients that take turns on one machine. Where each client has a part of the state that its
own steps alone can see and change, the order of the turns does not matter to any of them.
-/

set_option autoImplicit false

namespace Runs
variable {ε σ ι ο κ : Type} [DecidableEq κ]

def inputsOf (client : ι → κ) (c : κ) (is : List ι) : List ι :=
  is.filter fun i => decide (client i = c)

def outputsOf (client : ι → κ) (c : κ) : List ι → List ο → List ο
  | i :: is, o :: os =>
    if client i = c then o :: outputsOf client c is os else outputsOf client c is os
  | _, _ => []

/-- `view c` says that two states are the same to client `c`. A step gives its own client
the same output in both and leaves them the same to it; to the others it changes nothing. -/
structure Separate (step : ι → EStateM ε σ ο) (client : ι → κ) (view : κ → σ → σ → Prop)
    (P : ι → Prop) : Prop where
  refl : ∀ c s, view c s s
  own : ∀ i s s', P i → view (client i) s s' →
    Paired (view (client i)) Eq ((step i).run s) ((step i).run s')
  other : ∀ i c s t s' o, P i → client i ≠ c → (step i).run s = .ok o t → view c s s' →
    view c t s'

variable {step : ι → EStateM ε σ ο} {client : ι → κ} {view : κ → σ → σ → Prop} {P : ι → Prop}

theorem inputsOf_cons_own {i : ι} {c : κ} (h : client i = c) (is : List ι) :
    inputsOf client c (i :: is) = i :: inputsOf client c is := by
  simp [inputsOf,h]

theorem inputsOf_cons_other {i : ι} {c : κ} (h : client i ≠ c) (is : List ι) :
    inputsOf client c (i :: is) = inputsOf client c is := by
  simp [inputsOf,h]

theorem Separate.alone (h : Separate step client view P) {is : List ι} (hP : ∀ i ∈ is, P i)
    {s t s' : σ} {os : List ο} (hrun : (runAll step is).run s = .ok os t) {c : κ}
    (hview : view c s s') :
    ∃ t', (runAll step (inputsOf client c is)).run s' = .ok (outputsOf client c is os) t' ∧
      view c t t' := by
  induction is generalizing s s' os with
  | nil =>
    cases hrun
    exact ⟨s',rfl,hview⟩
  | cons i is ih =>
    obtain ⟨o,u,rest,hi,hrest,rfl⟩ := runAll_cons.mp hrun
    have hPi := hP i (by simp)
    by_cases hc : client i = c
    · subst hc
      obtain ⟨o',u',hi',ho,hu⟩ := (h.own i s s' hPi hview).of_ok hi
      obtain ⟨t',ht',hlast⟩ := ih (fun j hj => hP j (by simp [hj])) hrest hu
      refine ⟨t',?_,hlast⟩
      rw [inputsOf_cons_own rfl,outputsOf,if_pos rfl]
      exact runAll_cons.mpr ⟨o',u',_,hi',ht',by rw [ho]⟩
    · obtain ⟨t',ht',hlast⟩ :=
        ih (fun j hj => hP j (by simp [hj])) hrest (h.other i c s u s' o hPi hc hi hview)
      refine ⟨t',?_,hlast⟩
      rw [inputsOf_cons_other hc,outputsOf,if_neg hc]
      exact ht'

theorem Separate.together (h : Separate step client view P) {is : List ι} (hP : ∀ i ∈ is, P i)
    {s : σ} (halone : ∀ c, ∃ s' os t', view c s s' ∧
      (runAll step (inputsOf client c is)).run s' = .ok os t') :
    ∃ os t, (runAll step is).run s = .ok os t := by
  induction is generalizing s with
  | nil => exact ⟨[],s,rfl⟩
  | cons i is ih =>
    have hPi := hP i (by simp)
    obtain ⟨s',os',t',hview,hrun⟩ := halone (client i)
    rw [inputsOf_cons_own rfl] at hrun
    obtain ⟨o',u',rest',hi',hrest',-⟩ := runAll_cons.mp hrun
    have hpaired := h.own i s s' hPi hview
    rw [hi'] at hpaired
    cases hi : (step i).run s with
    | error x u =>
      rw [hi] at hpaired
      exact absurd hpaired not_false
    | ok o u =>
      rw [hi] at hpaired
      have hnext : ∀ c, ∃ s' os t', view c u s' ∧
          (runAll step (inputsOf client c is)).run s' = .ok os t' := by
        intro c
        by_cases hc : client i = c
        · subst hc
          exact ⟨u',rest',t',hpaired.2,hrest'⟩
        · obtain ⟨v,os,t,hv,hrun'⟩ := halone c
          rw [inputsOf_cons_other hc] at hrun'
          exact ⟨v,os,t,h.other i c s u v o hPi hc hi hv,hrun'⟩
      obtain ⟨os,t,hrest⟩ := ih (fun j hj => hP j (by simp [hj])) hnext
      exact ⟨o :: os,t,runAll_cons.mpr ⟨o,u,os,hi,hrest,rfl⟩⟩

/-- Two orders of the same turns: both get through, every client gets the same outputs, and
to every client the two final states are the same as one that it reaches alone. -/
theorem Separate.reorder (h : Separate step client view P) {is js : List ι}
    (hP : ∀ i ∈ is, P i) (hsame : ∀ c, inputsOf client c is = inputsOf client c js) {s t : σ}
    {os : List ο} (hrun : (runAll step is).run s = .ok os t) :
    ∃ ps u, (runAll step js).run s = .ok ps u ∧
      ∀ c, outputsOf client c is os = outputsOf client c js ps ∧
        ∃ v, view c t v ∧ view c u v := by
  have hPj : ∀ j ∈ js, P j := by
    intro j hj
    have hmem : j ∈ inputsOf client (client j) js := by simp [inputsOf,hj]
    rw [← hsame] at hmem
    exact hP j (List.mem_filter.mp hmem).1
  have halone : ∀ c, ∃ s' os t', view c s s' ∧
      (runAll step (inputsOf client c js)).run s' = .ok os t' := by
    intro c
    obtain ⟨t',ht',-⟩ := h.alone hP hrun (h.refl c s)
    rw [hsame] at ht'
    exact ⟨s,_,t',h.refl c s,ht'⟩
  obtain ⟨ps,u,hu⟩ := h.together hPj halone
  refine ⟨ps,u,hu,fun c => ?_⟩
  obtain ⟨v,hv,htv⟩ := h.alone hP hrun (h.refl c s)
  obtain ⟨w,hw,huw⟩ := h.alone hPj hu (h.refl c s)
  rw [hsame,hw] at hv
  obtain ⟨hout,rfl⟩ := EStateM.Result.ok.inj hv
  exact ⟨hout.symm,w,htv,huw⟩

end Runs
