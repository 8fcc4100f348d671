import VoltDBX.Races

/-!
`StorageEngine::get` while others write. It looks the key up to see if it has expired, reads
the clock if the entry found has a deadline, and looks the key up again for the value; between
these steps the table is changed by others and time passes.
-/

set_option autoImplicit false

namespace VoltDBX
open Runs

inductive GetStage where
  | called
  | found (entry : Option StorageEntry)
  | unexpired
  | replied (value : Option Bytes)
  deriving DecidableEq, Repr

structure GetAmongWrites (hash : Bytes → Nat) where
  storage : StorageEngine hash
  now : Int
  stage : GetStage

namespace GetAmongWrites
variable {hash : Bytes → Nat}

/-- A step of the call, a change of the table by another session or the sweep, or the time
that passes. -/
inductive Step where
  | call
  | insert (key : Bytes) (entry : StorageEntry)
  | erase (key : Bytes)
  | clear
  | tick (now : Int)

def step (key : Bytes) : Step → GetAmongWrites hash → Option (GetAmongWrites hash)
  | .call, s =>
    match s.stage with
    | .called => some { s with stage := .found (s.storage.table.find hash key) }
    | .found none => some { s with stage := .unexpired }
    | .found (some entry) =>
      if entry.live s.now then some { s with stage := .unexpired }
      else some { s with stage := .replied none }
    | .unexpired =>
      let value := (s.storage.table.find hash key).map StorageEntry.value
      some { s with stage := .replied value }
    | .replied _ => none
  | .insert k entry, s => some { s with storage := s.storage.insert k entry }
  | .erase k, s => some { s with storage := (s.storage.remove k).1 }
  | .clear, s => some { s with storage := s.storage.clearAll }
  | .tick now, s => if s.now ≤ now then some { s with now := now } else none

theorem step_insert {key k : Bytes} {entry : StorageEntry} {s t : GetAmongWrites hash}
    (h : step key (.insert k entry) s = some t) :
    t = { s with storage := s.storage.insert k entry } := (Option.some.inj h).symm

theorem step_tick {key : Bytes} {now : Int} {s t : GetAmongWrites hash}
    (h : step key (.tick now) s = some t) : s.now ≤ now ∧ t = { s with now := now } := by
  simp only [step] at h
  split at h
  · rename_i hle
    exact ⟨hle,(Option.some.inj h).symm⟩
  · cases h

theorem step_call {key : Bytes} {s t : GetAmongWrites hash} (h : step key .call s = some t) :
    ∃ stage, t = { s with stage := stage } ∧
      ((s.stage = .called ∧ stage = .found (s.storage.toMap.lookup key)) ∨
        (s.stage = .found none ∧ stage = .unexpired) ∨
        (∃ entry, s.stage = .found (some entry) ∧ entry.live s.now = true ∧ stage = .unexpired) ∨
        (∃ entry, s.stage = .found (some entry) ∧ entry.live s.now = false ∧
          stage = .replied none) ∨
        (s.stage = .unexpired ∧
          stage = .replied ((s.storage.toMap.lookup key).map StorageEntry.value))) := by
  simp only [step,StorageEngine.find_eq] at h
  split at h
  · rename_i hstage
    exact ⟨_,(Option.some.inj h).symm,Or.inl ⟨hstage,rfl⟩⟩
  · rename_i hstage
    exact ⟨_,(Option.some.inj h).symm,Or.inr (Or.inl ⟨hstage,rfl⟩)⟩
  · rename_i entry hstage
    split at h
    · rename_i hlive
      exact ⟨_,(Option.some.inj h).symm,Or.inr (Or.inr (Or.inl ⟨entry,hstage,hlive,rfl⟩))⟩
    · rename_i hdead
      exact ⟨_,(Option.some.inj h).symm,Or.inr (Or.inr (Or.inr (Or.inl
        ⟨entry,hstage,Bool.eq_false_iff.mpr hdead,rfl⟩)))⟩
  · rename_i hstage
    exact ⟨_,(Option.some.inj h).symm,Or.inr (Or.inr (Or.inr (Or.inr ⟨hstage,rfl⟩)))⟩
  · cases h

def Alone (key : Bytes) (s t : GetAmongWrites hash) : Prop :=
  t.storage = s.storage ∧ t.now = s.now ∧
    match t.stage with
    | .called => True
    | .found entry => entry = s.storage.toMap.lookup key
    | .unexpired => ∀ entry, s.storage.toMap.lookup key = some entry → entry.live s.now = true
    | .replied value => value = s.storage.get s.now key

theorem alone_step {key : Bytes} {s t u : GetAmongWrites hash} (h : Alone key s t)
    (hstep : step key .call t = some u) : Alone key s u := by
  obtain ⟨hstorage,hnow,hstage⟩ := h
  obtain ⟨stage,rfl,hcases⟩ := step_call hstep
  refine ⟨hstorage,hnow,?_⟩
  rw [StorageEngine.get_eq,Map.valueAt]
  rcases hcases with ⟨-,rfl⟩ | ⟨ht,rfl⟩ | ⟨entry,ht,hlive,rfl⟩ | ⟨entry,ht,hdead,rfl⟩ | ⟨ht,rfl⟩
  · exact congrArg (fun e => e.toMap.lookup key) hstorage
  · rw [ht] at hstage
    intro entry hentry
    rw [← hstage] at hentry
    cases hentry
  · rw [ht] at hstage
    intro entry' hentry
    rw [← hstage] at hentry
    cases hentry
    exact hnow ▸ hlive
  · rw [ht] at hstage
    dsimp only
    rw [← hstage,← hnow]
    simp [hdead]
  · rw [ht] at hstage
    dsimp only
    rw [hstorage]
    cases hfound : s.storage.toMap.lookup key with
    | none => rfl
    | some entry => simp [hstage entry hfound]

/-- Without interruption the call is the `get` of the engine. -/
theorem moves_get {key : Bytes} {s t : GetAmongWrites hash} {n : Nat} {reply : Option Bytes}
    (hstart : s.stage = .called) (hrun : Moves (step key) s (List.replicate n .call) t)
    (hdone : t.stage = .replied reply) : reply = s.storage.get s.now key := by
  have hs : Alone key s s := by
    refine ⟨rfl,rfl,?_⟩
    rw [hstart]
    trivial
  have halone : Alone key s t := by
    refine moves_invariant (fun i hi u v hu hmove => ?_) hs hrun
    rw [List.eq_of_mem_replicate hi] at hmove
    exact alone_step hu hmove
  obtain ⟨-,-,hstage⟩ := halone
  rw [hdone] at hstage
  exact hstage

def Has (s : GetAmongWrites hash) (key : Bytes) (entry : StorageEntry) : Prop :=
  s.storage.toMap.lookup key = some entry

/-- The entry was there and live in a state passed through, or it was written when its
deadline was over. -/
def Explained (key : Bytes) (s : GetAmongWrites hash) (steps : List Step) (entry : StorageEntry) :
    Prop :=
  Visits (step key) (fun u => u.Has key entry ∧ entry.live u.now = true) s steps ∨
    ∃ before after u, steps = before ++ .insert key entry :: after ∧
      Moves (step key) s before u ∧ entry.live u.now = false

/-- The entry found first had run out when the clock was read, but the key had another one
by then. -/
def Overtaken (key : Bytes) (s : GetAmongWrites hash) (steps : List Step) : Prop :=
  ∃ before between after u v entry, steps = before ++ between ++ after ∧
    Moves (step key) s before u ∧ Moves (step key) u between v ∧ u.Has key entry ∧
    entry.live v.now = false ∧ v.storage.get v.now key ≠ none

def Told (key : Bytes) (s : GetAmongWrites hash) (steps : List Step) (t : GetAmongWrites hash) :
    Prop :=
  match t.stage with
  | .called => True
  | .found entry =>
    (∃ before between u, steps = before ++ between ∧ Moves (step key) s before u ∧
      Moves (step key) u between t ∧ u.storage.toMap.lookup key = entry) ∧
    ∀ e, t.Has key e → entry = some e ∨ Explained key s steps e
  | .unexpired => ∀ e, t.Has key e → Explained key s steps e
  | .replied (some x) => ∃ e, e.value = x ∧ Explained key s steps e
  | .replied none =>
    Visits (step key) (fun u => u.storage.get u.now key = none) s steps ∨ Overtaken key s steps

section
variable {key : Bytes} {s u v : GetAmongWrites hash} {steps : List Step} {e : StorageEntry}

theorem Explained.append (h : Explained key s steps e) (more : List Step) :
    Explained key s (steps ++ more) e := by
  rcases h with hvisit | ⟨before,after,u,rfl,hu,hdead⟩
  · exact Or.inl (hvisit.append more)
  · exact Or.inr ⟨before,after ++ more,u,by simp,hu,hdead⟩

theorem Overtaken.append (h : Overtaken key s steps) (more : List Step) :
    Overtaken key s (steps ++ more) := by
  obtain ⟨before,between,after,u,v,entry,rfl,h⟩ := h
  exact ⟨before,between,after ++ more,u,v,entry,List.append_assoc _ _ _,h⟩

theorem Explained.of_step {i : Step} (hrun : Moves (step key) s steps u)
    (hstep : step key i u = some v) (hcall : i ≠ .call) :
    v.stage = u.stage ∧ ∀ e, v.Has key e → u.Has key e ∨ Explained key s (steps ++ [i]) e := by
  cases i with
  | call => exact absurd rfl hcall
  | insert k entry =>
    have hrun' : Moves (step key) s (steps ++ [.insert k entry]) v :=
      moves_append.mpr ⟨u,hrun,moves_cons.mpr ⟨v,hstep,moves_nil.mpr rfl⟩⟩
    obtain rfl := step_insert hstep
    refine ⟨rfl,fun e he => ?_⟩
    have hmap : (u.storage.toMap.insert k entry).lookup key = some e := by
      rw [← StorageEngine.toMap_insert]
      exact he
    by_cases hk : key = k
    · subst hk
      rw [Finmap.lookup_insert] at hmap
      obtain rfl := Option.some.inj hmap
      cases hlive : entry.live u.now with
      | true => exact Or.inr (Or.inl (visits_end hrun' ⟨he,hlive⟩))
      | false => exact Or.inr (Or.inr ⟨steps,[],u,rfl,hrun,hlive⟩)
    · rw [Finmap.lookup_insert_of_ne _ hk] at hmap
      exact Or.inl hmap
  | erase k =>
    cases hstep
    refine ⟨rfl,fun e he => Or.inl ?_⟩
    have hmap : (u.storage.toMap.erase k).lookup key = some e := by
      rw [← StorageEngine.toMap_remove]
      exact he
    by_cases hk : key = k
    · rw [hk,Finmap.lookup_erase] at hmap
      cases hmap
    · rw [Finmap.lookup_erase_ne hk] at hmap
      exact hmap
  | clear =>
    cases hstep
    refine ⟨rfl,fun e he => ?_⟩
    have hmap : (∅ : Map StorageEntry).lookup key = some e := by
      rw [← StorageEngine.toMap_clearAll u.storage]
      exact he
    rw [Finmap.lookup_empty] at hmap
    cases hmap
  | tick now =>
    obtain ⟨-,rfl⟩ := step_tick hstep
    exact ⟨rfl,fun e he => Or.inl he⟩

theorem told_call (hrun : Moves (step key) s steps u) (h : Told key s steps u)
    (hstep : step key .call u = some v) : Told key s (steps ++ [.call]) v := by
  have hlast : Moves (step key) u [.call] v := moves_cons.mpr ⟨v,hstep,moves_nil.mpr rfl⟩
  have hrun' : Moves (step key) s (steps ++ [.call]) v := moves_append.mpr ⟨u,hrun,hlast⟩
  obtain ⟨stage,rfl,hcases⟩ := step_call hstep
  unfold Told at h ⊢
  rcases hcases with ⟨-,rfl⟩ | ⟨hstage,rfl⟩ | ⟨entry,hstage,hlive,rfl⟩ |
    ⟨entry,hstage,hdead,rfl⟩ | ⟨hstage,rfl⟩
  · exact ⟨⟨_,[],_,(List.append_nil _).symm,hrun',moves_nil.mpr rfl,rfl⟩,fun e he => Or.inl he⟩
  · rw [hstage] at h
    intro e he
    rcases h.2 e he with hsame | hexplained
    · cases hsame
    · exact hexplained.append _
  · rw [hstage] at h
    intro e he
    rcases h.2 e he with hsame | hexplained
    · cases hsame
      exact Or.inl (visits_end hrun' ⟨he,hlive⟩)
    · exact hexplained.append _
  · -- the clock is read for the entry found at first, not for the one that is there
    rw [hstage] at h
    obtain ⟨⟨before,between,w,rfl,hw,hbetween,hfound⟩,-⟩ := h
    by_cases hnone : u.storage.get u.now key = none
    · exact Or.inl (visits_end hrun' hnone)
    · exact Or.inr ⟨before,between ++ [.call],[],w,{ u with stage := .replied none },entry,by simp,hw,
        moves_append.mpr ⟨u,hbetween,hlast⟩,hfound,hdead,hnone⟩
  · rw [hstage] at h
    cases hfound : u.storage.toMap.lookup key with
    | none =>
      refine Or.inl (visits_end hrun' ?_)
      dsimp only
      rw [StorageEngine.get_eq,Map.valueAt,hfound]
      rfl
    | some e => exact ⟨e,rfl,(h e hfound).append _⟩

theorem told_other {i : Step} (hrun : Moves (step key) s steps u) (h : Told key s steps u)
    (hstep : step key i u = some v) (hcall : i ≠ .call) : Told key s (steps ++ [i]) v := by
  have hlast : Moves (step key) u [i] v := moves_cons.mpr ⟨v,hstep,moves_nil.mpr rfl⟩
  obtain ⟨hstage,hkeep⟩ := Explained.of_step hrun hstep hcall
  unfold Told at h ⊢
  rw [hstage]
  cases hu : u.stage with
  | called => trivial
  | found entry =>
    rw [hu] at h
    obtain ⟨⟨before,between,w,rfl,hw,hbetween,hfound⟩,hentries⟩ := h
    refine ⟨⟨before,between ++ [i],w,by simp,hw,moves_append.mpr ⟨u,hbetween,hlast⟩,hfound⟩,?_⟩
    intro e he
    rcases hkeep e he with hold | hexplained
    · rcases hentries e hold with hsame | hexplained
      · exact Or.inl hsame
      · exact Or.inr (hexplained.append _)
    · exact Or.inr hexplained
  | unexpired =>
    rw [hu] at h
    intro e he
    rcases hkeep e he with hold | hexplained
    · exact (h e hold).append _
    · exact hexplained
  | replied value =>
    rw [hu] at h
    cases value with
    | none =>
      rcases h with hvisit | hovertaken
      · exact Or.inl (hvisit.append _)
      · exact Or.inr (hovertaken.append _)
    | some x =>
      obtain ⟨e,he,hexplained⟩ := h
      exact ⟨e,he,hexplained.append _⟩

theorem told_step {i : Step} (hrun : Moves (step key) s steps u) (h : Told key s steps u)
    (hstep : step key i u = some v) : Told key s (steps ++ [i]) v := by
  by_cases hcall : i = .call
  · subst hcall
    exact told_call hrun h hstep
  · exact told_other hrun h hstep hcall

end

/-- A GET, among any changes of the table by others: a value it returns was the live value of
the key in a state between its call and its return, or was written in between when its
deadline was over already; and where it returns none, there was none in such a state, or the
key was written anew while the entry found first ran out. -/
theorem get_among_writes {key : Bytes} {s t : GetAmongWrites hash} {steps : List Step}
    {reply : Option Bytes} (hstart : s.stage = .called) (hrun : Moves (step key) s steps t)
    (hdone : t.stage = .replied reply) :
    (∀ value, reply = some value →
      Visits (step key) (fun u => u.storage.get u.now key = some value) s steps ∨
      ∃ d before after u, steps = before ++ .insert key ⟨value,some d⟩ :: after ∧
        Moves (step key) s before u ∧ d ≤ u.now) ∧
    (reply = none → Visits (step key) (fun u => u.storage.get u.now key = none) s steps ∨
      Overtaken key s steps) := by
  have htold : Told key s steps t := by
    refine moves_history (I := fun js u => Told key s js u) ?_ (fun js i u v hu h hi => ?_) hrun
    · unfold Told
      rw [hstart]
      trivial
    · exact told_step hu h hi
  unfold Told at htold
  rw [hdone] at htold
  constructor
  · rintro value rfl
    obtain ⟨e,rfl,hvisit | ⟨before,after,u,rfl,hu,hdead⟩⟩ := htold
    · obtain ⟨js,rest,u,hsteps,hu,hhas,hlive⟩ := hvisit
      refine Or.inl ⟨js,rest,u,hsteps,hu,?_⟩
      dsimp only
      rw [StorageEngine.get_eq,Map.valueAt,hhas]
      simp [hlive]
    · cases hd : e.expiresAt with
      | none => simp [StorageEntry.live,hd] at hdead
      | some d =>
        simp only [StorageEntry.live,hd,decide_eq_false_iff_not,Int.not_lt] at hdead
        refine Or.inr ⟨d,before,after,u,?_,hu,hdead⟩
        rw [← hd]
  · rintro rfl
    exact htold

theorem step_called {key : Bytes} {e : StorageEngine hash} {now : Int} {entry : StorageEntry}
    (h : e.toMap.lookup key = some entry) :
    step key .call ⟨e,now,.called⟩ = some ⟨e,now,.found (some entry)⟩ := by
  simp only [step,StorageEngine.find_eq,h]

theorem get_among_writes_example :
    ∃ (s t : GetAmongWrites fun _ => 0) (steps : List Step),
      Moves (step (bytes "k")) s steps t ∧ t.stage = .replied (some (bytes "w")) ∧
      (Visits (step (bytes "k")) (fun u => u.storage.get u.now (bytes "k") = some (bytes "w")) s steps ∨
        ∃ d before after u, steps = before ++ .insert (bytes "k") ⟨bytes "w",some d⟩ :: after ∧
          Moves (step (bytes "k")) s before u ∧ d ≤ u.now) := by
  obtain ⟨e,he⟩ : ∃ e : StorageEngine fun _ => 0, e.toMap.lookup (bytes "k") = some ⟨bytes "v",none⟩ :=
    ⟨(StorageEngine.create _).insert (bytes "k") ⟨bytes "v",none⟩,by
      rw [StorageEngine.toMap_insert,Finmap.lookup_insert]⟩
  have hw : (e.insert (bytes "k") ⟨bytes "w",none⟩).toMap.lookup (bytes "k") =
      some ⟨bytes "w",none⟩ := by rw [StorageEngine.toMap_insert,Finmap.lookup_insert]
  let s0 : GetAmongWrites fun _ => 0 := ⟨e,0,.called⟩
  let s1 : GetAmongWrites fun _ => 0 := ⟨e,0,.found (some ⟨bytes "v",none⟩)⟩
  let s2 : GetAmongWrites fun _ => 0 := { s1 with stage := .unexpired }
  let s3 : GetAmongWrites fun _ => 0 := { s2 with storage := e.insert (bytes "k") ⟨bytes "w",none⟩ }
  let s4 : GetAmongWrites fun _ => 0 := { s3 with stage := .replied (some (bytes "w")) }
  have h1 : step (bytes "k") .call s0 = some s1 := step_called he
  have h2 : step (bytes "k") .call s1 = some s2 := rfl
  have h3 : step (bytes "k") (.insert (bytes "k") ⟨bytes "w",none⟩) s2 = some s3 := rfl
  have h4 : step (bytes "k") .call s3 = some s4 := by
    simp only [step,s3,s2,StorageEngine.find_eq,hw,Option.map_some]
    rfl
  have hrun := moves_cons.mpr ⟨s1,h1,moves_cons.mpr ⟨s2,h2,moves_cons.mpr ⟨s3,h3,
    moves_cons.mpr ⟨s4,h4,moves_nil.mpr rfl⟩⟩⟩⟩
  exact ⟨s0,s4,_,hrun,rfl,(get_among_writes rfl hrun rfl).1 (bytes "w") rfl⟩

/-- A key that has a value all the time is reported absent: the entry found first runs out
after a SET has replaced it. -/
theorem get_misses_a_key :
    ∃ (s t : GetAmongWrites fun _ => 0) (steps : List Step),
      Moves (step (bytes "k")) s steps t ∧ s.stage = .called ∧ t.stage = .replied none ∧
      ¬ Visits (step (bytes "k")) (fun u => u.storage.get u.now (bytes "k") = none) s steps := by
  obtain ⟨e,he⟩ : ∃ e : StorageEngine fun _ => 0,
      e.toMap.lookup (bytes "k") = some ⟨bytes "v",some 10⟩ :=
    ⟨(StorageEngine.create _).insert (bytes "k") ⟨bytes "v",some 10⟩,by
      rw [StorageEngine.toMap_insert,Finmap.lookup_insert]⟩
  have hw : (e.insert (bytes "k") ⟨bytes "w",none⟩).toMap.lookup (bytes "k") =
      some ⟨bytes "w",none⟩ := by rw [StorageEngine.toMap_insert,Finmap.lookup_insert]
  have hbefore : ∀ u : GetAmongWrites fun _ => 0, u.storage = e → u.now = 5 →
      u.storage.get u.now (bytes "k") ≠ none := by
    intro u hu hnow
    rw [hu,hnow,StorageEngine.get_eq,Map.valueAt,he]
    decide
  have hafter : ∀ u : GetAmongWrites fun _ => 0, u.storage = e.insert (bytes "k") ⟨bytes "w",none⟩ →
      u.storage.get u.now (bytes "k") ≠ none := by
    intro u hu
    rw [hu,StorageEngine.get_eq,Map.valueAt,hw]
    simp [StorageEntry.live]
  let s0 : GetAmongWrites fun _ => 0 := ⟨e,5,.called⟩
  let s1 : GetAmongWrites fun _ => 0 := ⟨e,5,.found (some ⟨bytes "v",some 10⟩)⟩
  let s2 : GetAmongWrites fun _ => 0 := { s1 with storage := e.insert (bytes "k") ⟨bytes "w",none⟩ }
  let s3 : GetAmongWrites fun _ => 0 := { s2 with now := 11 }
  let s4 : GetAmongWrites fun _ => 0 := { s3 with stage := .replied none }
  have h1 : step (bytes "k") .call s0 = some s1 := step_called he
  have h2 : step (bytes "k") (.insert (bytes "k") ⟨bytes "w",none⟩) s1 = some s2 := rfl
  have h3 : step (bytes "k") (.tick 11) s2 = some s3 := rfl
  have h4 : step (bytes "k") .call s3 = some s4 := rfl
  have hrun := moves_cons.mpr ⟨s1,h1,moves_cons.mpr ⟨s2,h2,moves_cons.mpr ⟨s3,h3,
    moves_cons.mpr ⟨s4,h4,moves_nil.mpr rfl⟩⟩⟩⟩
  refine ⟨s0,s4,_,hrun,rfl,rfl,?_⟩
  rintro ⟨js,rest,u,hsteps,hu,hnone⟩
  rcases js with _ | ⟨i,_ | ⟨j,js⟩⟩
  · cases moves_nil.mp hu
    exact hbefore s0 rfl rfl hnone
  · obtain rfl : i = .call := (List.cons.inj hsteps).1.symm
    cases hu.eq (moves_cons.mpr ⟨s1,h1,moves_nil.mpr rfl⟩)
    exact hbefore s1 rfl rfl hnone
  · -- from the SET on the store stays as it is
    obtain ⟨hi,htail⟩ := List.cons.inj hsteps
    obtain ⟨hj,htail⟩ := List.cons.inj htail
    have hrest : [Step.tick 11,Step.call] = js ++ rest := htail
    subst hi hj
    obtain ⟨v,hv,hu⟩ := moves_cons.mp hu
    cases h1.symm.trans hv
    obtain ⟨w,hw,hu⟩ := moves_cons.mp hu
    cases h2.symm.trans hw
    refine hafter u (moves_invariant (I := fun v => v.storage = s2.storage)
      (fun i hi v w hv hmove => ?_) rfl hu) hnone
    have hmem : i ∈ [Step.tick 11,Step.call] := by
      rw [hrest]
      exact List.mem_append_left _ hi
    rcases List.mem_pair.mp hmem with rfl | rfl
    · obtain ⟨-,rfl⟩ := step_tick hmove
      exact hv
    · obtain ⟨stage,rfl,-⟩ := step_call hmove
      exact hv

end GetAmongWrites
end VoltDBX
