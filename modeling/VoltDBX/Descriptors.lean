import VoltDBX.ThreadPool

/-!
The descriptors of the server process: the listening socket of net/tcp_server.cpp, the epoll
descriptor of io_multiplexer.cpp, the sockets of the sessions of client_session.cpp and the
files of the persistence, opened and closed by all threads in any interleaving. The kernel
gives the number of a closed descriptor out again.
-/

set_option autoImplicit false

namespace VoltDBX

/-- `fd_` and `alive_` of a `ClientSession`; no descriptor stands for -1. -/
structure SessionSocket where
  fd : Option Nat
  alive : Bool
  deriving DecidableEq, Repr

/-- Where `run` is with its `TcpServer` and its `IoMultiplexer`; it is `watching` until
`add_read` has returned. -/
inductive ListenStage where
  | constructed
  | binding
  | refused
  | listening
  | watching
  | accepting
  | left
  | destroyed
  deriving DecidableEq, Repr

/-- `opened` is what the kernel has open for the process, `faults` the number of calls of
`listen`, `epoll_ctl`, `epoll_wait`, `read`, `write` and `close` on a descriptor that was not.
`sessions` has none for a session that is destroyed. `passing` is the number that was read
from `listen_fd_` to be passed to `epoll_ctl` or to `accept`. -/
structure Descriptors where
  opened : List Nat
  faults : Nat
  stage : ListenStage
  running : Bool
  listenFd : Option Nat
  pollFd : Option Nat
  passing : Option (Option Nat)
  sessions : List (Option SessionSocket)
  files : List Nat
  deriving DecidableEq, Repr

/-- The accept loop has been entered: the multiplexer is there. -/
def ListenStage.entered : ListenStage → Bool
  | .watching | .accepting => true
  | _ => false

namespace Descriptors

def start : Descriptors := ⟨[],0,.constructed,false,none,none,none,[],[]⟩

def use (n : Nat) (s : Descriptors) : Descriptors :=
  if n ∈ s.opened then s else { s with faults := s.faults+1 }

def useAll (fds : Option Nat) (s : Descriptors) : Descriptors :=
  match fds with
  | none => s
  | some n => use n s

def close (n : Nat) (s : Descriptors) : Descriptors :=
  if n ∈ s.opened then { s with opened := s.opened.erase n } else { s with faults := s.faults+1 }

def closeAll (fds : Option Nat) (s : Descriptors) : Descriptors :=
  match fds with
  | none => s
  | some n => close n s

/-- The call of `close` and the reset of the field are one step. -/
def closeListen (s : Descriptors) : Descriptors :=
  { closeAll s.listenFd s with listenFd := none }

def stop (s : Descriptors) : Descriptors :=
  if s.running then closeListen { s with running := false } else s

def markClosed (i : Nat) (session : SessionSocket) (s : Descriptors) : Descriptors :=
  if session.alive then
    { closeAll session.fd s with sessions := s.sessions.set i (some ⟨none,false⟩) }
  else s

/-- The outcomes of one `read` in `read_line`; `tooLong` is the byte after the 65536th. -/
inductive ReadOutcome where
  | byte
  | failed
  | tooLong
  deriving DecidableEq, Repr

inductive Step where
  | socket (result : Option Nat)
  | listen (succeeded : Bool)
  | createPoll (result : Option Nat)
  /-- `listen_fd` is read for `add_read`. -/
  | watch
  | addRead
  /-- `listen_fd` is read for `accept`. -/
  | readable
  | accept (result : Option Nat)
  | read (i : Nat) (outcome : ReadOutcome)
  | write (i : Nat) (succeeded : Bool)
  | markClosed (i : Nat)
  | destroySession (i : Nat)
  | signal
  | destroyPoll
  | destroyServer
  | openFile (n : Nat)
  | closeFile (n : Nat)
  deriving DecidableEq, Repr

def step : Step → Descriptors → Option Descriptors
  | .socket result, s =>
    match s.stage, result with
    | .constructed, none => some { s with stage := .refused }
    | .constructed, some n =>
      if n ∈ s.opened then none
      else some { s with stage := .binding, opened := n :: s.opened, listenFd := some n }
    | _, _ => none
  | .listen succeeded, s =>
    match s.stage, s.listenFd with
    | .binding, some n =>
      if succeeded then some { use n s with stage := .listening, running := true }
      else some { closeListen (use n s) with stage := .refused }
    | _, _ => none
  | .createPoll result, s =>
    match s.stage, result with
    | .listening, none => some { s with stage := .watching }
    | .listening, some n =>
      if n ∈ s.opened then none
      else some { s with stage := .watching, opened := n :: s.opened, pollFd := some n }
    | _, _ => none
  | .watch, s =>
    match s.stage, s.passing with
    | .watching, none => some { s with passing := some s.listenFd }
    | _, _ => none
  | .addRead, s =>
    match s.stage, s.passing with
    -- the number may be closed, or another's, by now: the kernel says so and nobody asks
    | .watching, some _ => some { useAll s.pollFd s with stage := .accepting, passing := none }
    | _, _ => none
  | .readable, s =>
    match s.stage, s.passing, s.pollFd with
    | .accepting, none, some p => some { use p s with passing := some s.listenFd }
    | _, _, _ => none
  | .accept result, s =>
    match s.stage, s.passing, result with
    | .accepting, some _, none => some { s with passing := none }
    | .accepting, some (some l), some n =>
      -- the kernel accepts on a listening socket only
      if s.listenFd = some l ∧ n ∉ s.opened then some { s with
        passing := none
        opened := n :: s.opened
        sessions := s.sessions ++ [some ⟨some n,true⟩] }
      else none
    | _, _, _ => none
  | .read i outcome, s =>
    match s.sessions[i]? with
    | some (some ⟨some n,true⟩) =>
      if outcome = .byte then some (use n s) else some (markClosed i ⟨some n,true⟩ (use n s))
    | _ => none
  | .write i succeeded, s =>
    match s.sessions[i]? with
    | some (some ⟨some n,true⟩) =>
      if succeeded then some (use n s) else some (markClosed i ⟨some n,true⟩ (use n s))
    | some (some _) => some s
    | _ => none
  | .markClosed i, s =>
    match s.sessions[i]? with
    | some (some session) => some (markClosed i session s)
    | _ => none
  | .destroySession i, s =>
    match s.sessions[i]? with
    | some (some session) =>
      let closed := markClosed i session s
      some { closed with sessions := closed.sessions.set i none }
    | _ => none
  | .signal, s =>
    match s.stage with
    | .listening | .watching | .accepting | .left => some (stop s)
    | _ => none
  | .destroyPoll, s =>
    match s.stage, s.passing with
    | .accepting, none =>
      if s.running then none
      else some { closeAll s.pollFd s with stage := .left, pollFd := none }
    | _, _ => none
  | .destroyServer, s =>
    match s.stage with
    | .refused | .left => some { stop s with stage := .destroyed }
    | _ => none
  | .openFile n, s =>
    if n ∈ s.opened then none
    else some { s with opened := n :: s.opened, files := n :: s.files }
  | .closeFile n, s =>
    if n ∈ s.files then some { close n s with files := s.files.erase n } else none

variable {s t : Descriptors}

theorem step_openFile {n : Nat} (hstep : step (.openFile n) s = some t) :
    n ∉ s.opened ∧ t = { s with opened := n :: s.opened, files := n :: s.files } := by
  simp only [step] at hstep
  split at hstep
  · cases hstep
  · rename_i hfree
    exact ⟨hfree,(Option.some.inj hstep).symm⟩

theorem step_closeFile {n : Nat} (hstep : step (.closeFile n) s = some t) :
    n ∈ s.files ∧ t = { close n s with files := s.files.erase n } := by
  simp only [step] at hstep
  split at hstep
  · rename_i hfile
    exact ⟨hfile,(Option.some.inj hstep).symm⟩
  · cases hstep

def fdOf : Option SessionSocket → List Nat
  | none => []
  | some session => session.fd.toList

def held (s : Descriptors) : List Nat :=
  s.listenFd.toList ++ s.pollFd.toList ++ s.sessions.flatMap fdOf ++ s.files

/-- What holds in every state: the descriptors that are open are those that are held, each by
one object. -/
structure Sound (s : Descriptors) : Prop where
  once : s.opened.Nodup
  held : s.opened.Perm s.held
  faultless : s.faults = 0
  alive : ∀ session, some session ∈ s.sessions → session.alive = session.fd.isSome
  /-- The listening socket is closed once `running_` is down, but for the time before. -/
  listens : s.listenFd.isSome = true → s.running = true ∨ s.stage = .binding
  runs : s.running = true → s.listenFd.isSome = true ∧ (s.stage = .listening ∨ s.stage.entered = true)
  polls : s.pollFd.isSome = true → s.stage.entered = true
  passes : ∀ l, s.passing = some l → s.stage.entered = true ∧ (l = s.listenFd ∨ s.running = false)

theorem sound_start : start.Sound :=
  ⟨List.nodup_nil,List.Perm.refl [],rfl,fun _ h => absurd h List.not_mem_nil,
    fun h => absurd h (by decide),fun h => absurd h (by decide),fun h => absurd h (by decide),
    nofun⟩

theorem perm_erase {l l' : List Nat} {n : Nat} (h : l.Perm (n :: l')) : (l.erase n).Perm l' := by
  have herase := h.erase n
  rwa [List.erase_cons_head] at herase

theorem use_held (h : s.opened.Perm s.held) {n : Nat} (hn : n ∈ s.held) : use n s = s := by
  rw [use,if_pos (h.mem_iff.mpr hn)]

theorem close_held (h : s.opened.Perm s.held) {n : Nat} (hn : n ∈ s.held) :
    close n s = { s with opened := s.opened.erase n } := by
  rw [close,if_pos (h.mem_iff.mpr hn)]

theorem mem_session {i n : Nat} {session : SessionSocket}
    (hi : s.sessions[i]? = some (some session)) (hn : session.fd = some n) : n ∈ s.held := by
  have hmem : n ∈ s.sessions.flatMap fdOf :=
    List.mem_flatMap.mpr ⟨some session,List.mem_of_getElem? hi,by simp [fdOf,hn]⟩
  simp only [Descriptors.held,List.mem_append]
  exact Or.inl (Or.inr hmem)

theorem perm_middle {a b l l' : List Nat} {n : Nat} (h : l.Perm (n :: l')) :
    (a ++ l ++ b).Perm (n :: (a ++ l' ++ b)) := by
  refine ((h.append_left a).append_right b).trans ?_
  rw [List.append_assoc,List.append_assoc]
  exact List.perm_middle

theorem mem_set_cases {sessions : List (Option SessionSocket)} {i : Nat}
    {new : Option SessionSocket} {session : SessionSocket}
    (h : some session ∈ sessions.set i new) : new = some session ∨ some session ∈ sessions := by
  rcases List.mem_or_eq_of_mem_set h with hold | hnew
  · exact Or.inr hold
  · exact Or.inl hnew.symm

theorem Sound.markClosed (h : Sound s) {i : Nat} {session : SessionSocket}
    (hi : s.sessions[i]? = some (some session)) : Sound (Descriptors.markClosed i session s) := by
  unfold Descriptors.markClosed
  split
  · rename_i halive
    obtain ⟨n,hn⟩ : ∃ n, session.fd = some n := by
      rw [h.alive session (List.mem_of_getElem? hi)] at halive
      exact Option.isSome_iff_exists.mp halive
    rw [hn,closeAll,close_held h.held (mem_session hi hn)]
    have hsessions : (s.sessions.flatMap fdOf).Perm
        (n :: (s.sessions.set i (some ⟨none,false⟩)).flatMap fdOf) := by
      have hset := ThreadPool.flatMap_set_perm fdOf hi (some ⟨none,false⟩)
      simp only [fdOf,hn,Option.toList_some,Option.toList_none,List.singleton_append,
        List.nil_append] at hset
      exact hset.symm
    refine ⟨h.once.erase n,perm_erase (h.held.trans (perm_middle hsessions)),h.faultless,?_,
      h.listens,h.runs,h.polls,h.passes⟩
    intro other hother
    rcases mem_set_cases hother with hsame | hold
    · cases hsame
      rfl
    · exact h.alive other hold
  · exact h

theorem getElem?_markClosed {i : Nat} {session : SessionSocket}
    (hi : s.sessions[i]? = some (some session)) (halive : session.alive = session.fd.isSome) :
    ∃ new, (Descriptors.markClosed i session s).sessions[i]? = some (some new) ∧ new.fd = none := by
  have hsessions : ∀ fds, (closeAll fds s).sessions = s.sessions := by
    intro fds
    cases fds with
    | none => rfl
    | some n =>
      rw [closeAll,Descriptors.close]
      split
      · rfl
      · rfl
  unfold Descriptors.markClosed
  split
  · refine ⟨⟨none,false⟩,?_,rfl⟩
    exact List.getElem?_set_self (List.getElem?_eq_some_iff.mp hi).1
  · rename_i hdead
    refine ⟨session,hi,?_⟩
    rw [halive] at hdead
    exact Option.not_isSome_iff_eq_none.mp hdead

theorem Sound.destroySession (h : Sound s) {i : Nat} {session : SessionSocket}
    (hi : s.sessions[i]? = some (some session)) :
    Sound { Descriptors.markClosed i session s with
      sessions := (Descriptors.markClosed i session s).sessions.set i none } := by
  obtain ⟨new,hnew,hfd⟩ := getElem?_markClosed hi (h.alive session (List.mem_of_getElem? hi))
  have hclosed := h.markClosed hi
  generalize Descriptors.markClosed i session s = u at hnew hclosed
  have hset := ThreadPool.flatMap_set_perm fdOf hnew none
  simp only [fdOf,hfd,Option.toList_none,List.nil_append] at hset
  refine ⟨hclosed.once,hclosed.held.trans ?_,hclosed.faultless,fun other hother => ?_,
    hclosed.listens,hclosed.runs,hclosed.polls,hclosed.passes⟩
  · exact (hset.symm.append_left _).append_right _
  · rcases mem_set_cases hother with hsame | hold
    · cases hsame
    · exact hclosed.alive other hold

theorem closeListen_eq (honce : s.opened.Nodup) (h : s.opened.Perm s.held) :
    ∃ rest, closeListen s = { s with opened := rest, listenFd := none } ∧ rest.Nodup ∧
      rest.Perm (s.pollFd.toList ++ s.sessions.flatMap fdOf ++ s.files) := by
  unfold closeListen
  rw [Descriptors.held] at h
  cases hl : s.listenFd with
  | none =>
    rw [hl] at h
    exact ⟨s.opened,rfl,honce,h⟩
  | some n =>
    have hn : n ∈ s.opened := h.mem_iff.mpr (by simp [hl])
    rw [hl] at h
    refine ⟨s.opened.erase n,?_,honce.erase n,perm_erase h⟩
    rw [closeAll,close,if_pos hn]

theorem Sound.stop (h : Sound s) : Sound (Descriptors.stop s) := by
  unfold Descriptors.stop
  split
  · obtain ⟨rest,heq,honce,hrest⟩ :=
      @closeListen_eq { s with running := false } h.once h.held
    rw [heq]
    exact ⟨honce,hrest,h.faultless,h.alive,fun hl => absurd hl Bool.false_ne_true,
      fun hr => absurd hr Bool.false_ne_true,h.polls,fun l hl => ⟨(h.passes l hl).1,Or.inr rfl⟩⟩
  · exact h

theorem Sound.notRunning (h : Sound s) (hl : s.stage ≠ .listening) (ha : ¬ s.stage.entered = true) :
    s.running = false := by
  rw [← Bool.not_eq_true]
  intro hrunning
  rcases (h.runs hrunning).2 with hstage | hstage
  · exact hl hstage
  · exact ha hstage

theorem Sound.pollFd_none (h : Sound s) (ha : ¬ s.stage.entered = true) : s.pollFd = none := by
  rw [← Option.not_isSome_iff_eq_none]
  exact fun hsome => ha (h.polls hsome)

theorem Sound.passing_none (h : Sound s) (ha : ¬ s.stage.entered = true) : s.passing = none := by
  cases hp : s.passing with
  | none => rfl
  | some l => exact absurd (h.passes l hp).1 ha

theorem Sound.listenFd_none (h : Sound s) (hb : s.stage ≠ .binding) (hr : s.running = false) :
    s.listenFd = none := by
  rw [← Option.not_isSome_iff_eq_none]
  intro hsome
  rcases h.listens hsome with hrunning | hstage
  · rw [hr] at hrunning
    cases hrunning
  · exact hb hstage

theorem Sound.toStage (h : Sound s) {stage : ListenStage} (hb : s.stage ≠ .binding)
    (hr : s.running = false) (ha : ¬ s.stage.entered = true) : Sound { s with stage := stage } := by
  have hlisten := h.listenFd_none hb hr
  have hpoll := h.pollFd_none ha
  have hpassing := h.passing_none ha
  refine ⟨h.once,h.held,h.faultless,h.alive,fun hsome => ?_,fun hrunning => ?_,fun hsome => ?_,
    fun l hl => ?_⟩
  · rw [hlisten] at hsome
    cases hsome
  · rw [hr] at hrunning
    cases hrunning
  · rw [hpoll] at hsome
    cases hsome
  · rw [hpassing] at hl
    cases hl

theorem Sound.socket (h : Sound s) {result : Option Nat}
    (hstep : Descriptors.step (.socket result) s = some t) : Sound t := by
  simp only [Descriptors.step] at hstep
  split at hstep
  · rename_i hstage
    cases hstep
    have ha : ¬ s.stage.entered = true := by simp [hstage,ListenStage.entered]
    have hb : s.stage ≠ .binding := by simp [hstage]
    exact h.toStage hb (h.notRunning (by simp [hstage]) ha) ha
  · rename_i n hstage
    split at hstep
    · cases hstep
    · rename_i hfree
      cases hstep
      have ha : ¬ s.stage.entered = true := by simp [hstage,ListenStage.entered]
      have hr := h.notRunning (by simp [hstage]) ha
      have hnone := h.listenFd_none (by simp [hstage]) hr
      have hheld := h.held
      rw [Descriptors.held,hnone] at hheld
      refine ⟨List.nodup_cons.mpr ⟨hfree,h.once⟩,hheld.cons n,h.faultless,h.alive,
        fun _ => Or.inr rfl,fun hrunning => ?_,fun hsome => absurd (h.polls hsome) ha,
        fun l hl => absurd (h.passes l hl).1 ha⟩
      rw [hr] at hrunning
      cases hrunning
  · cases hstep

theorem Sound.listen (h : Sound s) {succeeded : Bool}
    (hstep : Descriptors.step (.listen succeeded) s = some t) : Sound t := by
  simp only [Descriptors.step] at hstep
  split at hstep
  · rename_i n hstage hl
    have ha : ¬ s.stage.entered = true := by simp [hstage,ListenStage.entered]
    have hr := h.notRunning (by simp [hstage]) ha
    rw [use_held h.held (by simp [Descriptors.held,hl])] at hstep
    split at hstep
    · cases hstep
      exact ⟨h.once,h.held,h.faultless,h.alive,fun _ => Or.inl rfl,
        fun _ => ⟨by rw [hl]; rfl,Or.inl rfl⟩,fun hsome => absurd (h.polls hsome) ha,
        fun l hl => absurd (h.passes l hl).1 ha⟩
    · cases hstep
      obtain ⟨rest,heq,honce,hrest⟩ := closeListen_eq h.once h.held
      rw [heq]
      refine ⟨honce,hrest,h.faultless,h.alive,fun hsome => absurd hsome Bool.false_ne_true,
        fun hrunning => ?_,fun hsome => absurd (h.polls hsome) ha,
        fun l hl => absurd (h.passes l hl).1 ha⟩
      rw [hr] at hrunning
      cases hrunning
  · cases hstep

theorem Sound.createPoll (h : Sound s) {result : Option Nat}
    (hstep : Descriptors.step (.createPoll result) s = some t) : Sound t := by
  simp only [Descriptors.step] at hstep
  split at hstep
  · rename_i hstage
    cases hstep
    have ha : ¬ s.stage.entered = true := by simp [hstage,ListenStage.entered]
    refine ⟨h.once,h.held,h.faultless,h.alive,fun hsome => ?_,fun hr => ⟨(h.runs hr).1,Or.inr rfl⟩,
      fun _ => rfl,fun l hl => absurd (h.passes l hl).1 ha⟩
    rcases h.listens hsome with hr | hb
    · exact Or.inl hr
    · rw [hstage] at hb
      cases hb
  · rename_i n hstage
    split at hstep
    · cases hstep
    · rename_i hfree
      cases hstep
      have ha : ¬ s.stage.entered = true := by simp [hstage,ListenStage.entered]
      have hheld := h.held
      rw [Descriptors.held,h.pollFd_none ha] at hheld
      refine ⟨List.nodup_cons.mpr ⟨hfree,h.once⟩,(hheld.cons n).trans ?_,h.faultless,h.alive,
        fun hsome => ?_,fun hr => ⟨(h.runs hr).1,Or.inr rfl⟩,
        fun _ => rfl,fun l hl => absurd (h.passes l hl).1 ha⟩
      · simp only [Descriptors.held,Option.toList_none,List.append_nil,Option.toList_some,
          List.append_assoc,List.singleton_append]
        exact List.perm_middle.symm
      · rcases h.listens hsome with hr | hb
        · exact Or.inl hr
        · rw [hstage] at hb
          cases hb
  · cases hstep

theorem Sound.watch (h : Sound s) (hstep : Descriptors.step .watch s = some t) : Sound t := by
  simp only [Descriptors.step] at hstep
  split at hstep
  · rename_i hstage hpassing
    cases hstep
    exact ⟨h.once,h.held,h.faultless,h.alive,h.listens,h.runs,h.polls,
      fun l hl => ⟨by rw [hstage]; rfl,Or.inl (Option.some.inj hl).symm⟩⟩
  · cases hstep

theorem Sound.addRead (h : Sound s) (hstep : Descriptors.step .addRead s = some t) :
    Sound t := by
  simp only [Descriptors.step] at hstep
  split at hstep
  · rename_i l hstage hpassing
    have huse : useAll s.pollFd s = s := by
      cases hp : s.pollFd with
      | none => rfl
      | some p => exact use_held h.held (by simp [Descriptors.held,hp])
    rw [huse] at hstep
    cases hstep
    refine ⟨h.once,h.held,h.faultless,h.alive,fun hsome => ?_,
      fun hr => ⟨(h.runs hr).1,Or.inr rfl⟩,fun _ => rfl,fun l hl => by cases hl⟩
    rcases h.listens hsome with hr | hb
    · exact Or.inl hr
    · rw [hstage] at hb
      cases hb
  · cases hstep

theorem Sound.accept (h : Sound s) {result : Option Nat}
    (hstep : Descriptors.step (.accept result) s = some t) : Sound t := by
  simp only [Descriptors.step] at hstep
  split at hstep
  · cases hstep
    exact ⟨h.once,h.held,h.faultless,h.alive,h.listens,h.runs,h.polls,fun l hl => by cases hl⟩
  · rename_i l n hstage hpassing
    split at hstep
    · rename_i hkernel
      cases hstep
      refine ⟨List.nodup_cons.mpr ⟨hkernel.2,h.once⟩,(h.held.cons n).trans ?_,h.faultless,
        fun session hsession => ?_,h.listens,h.runs,h.polls,fun l hl => by cases hl⟩
      · simp only [Descriptors.held,List.flatMap_append,List.flatMap_cons,List.flatMap_nil,fdOf,
          Option.toList_some,List.append_nil]
        simp only [← List.append_assoc]
        rw [List.append_assoc _ [n] s.files,List.singleton_append]
        exact List.perm_middle.symm
      · rcases List.mem_append.mp hsession with hold | hnew
        · exact h.alive session hold
        · cases List.mem_singleton.mp hnew
          rfl
    · cases hstep
  · cases hstep

theorem Sound.destroyPoll (h : Sound s) (hstep : Descriptors.step .destroyPoll s = some t) :
    Sound t := by
  simp only [Descriptors.step] at hstep
  split at hstep
  · rename_i hstage hpassing
    split at hstep
    · cases hstep
    · rename_i hrunning
      cases hstep
      have hr : s.running = false := by simpa using hrunning
      have hnone := h.listenFd_none (by simp [hstage]) hr
      have hheld := h.held
      rw [Descriptors.held,hnone] at hheld
      have hdown : ∀ rest : List Nat, rest.Nodup → rest.Perm (s.sessions.flatMap fdOf ++ s.files) →
          Sound { s with opened := rest, stage := .left, pollFd := none } := by
        intro rest honce hrest
        refine ⟨honce,?_,h.faultless,h.alive,fun hsome => ?_,fun hrun => ?_,
          fun hsome => absurd hsome Bool.false_ne_true,fun l hl => ?_⟩
        · rw [Descriptors.held,hnone]
          exact hrest
        · rw [hnone] at hsome
          cases hsome
        · rw [hr] at hrun
          cases hrun
        · rw [hpassing] at hl
          cases hl
      cases hp : s.pollFd with
      | none =>
        rw [hp] at hheld
        exact hdown s.opened h.once hheld
      | some p =>
        have hmem : p ∈ s.held := by simp [Descriptors.held,hp]
        rw [hp] at hheld
        rw [closeAll,close_held h.held hmem]
        exact hdown _ (h.once.erase p) (perm_erase hheld)
  · cases hstep

theorem Sound.readable (h : Sound s) (hstep : Descriptors.step .readable s = some t) :
    Sound t := by
  simp only [Descriptors.step] at hstep
  split at hstep
  · rename_i p hstage hpassing hp
    rw [use_held h.held (by simp [Descriptors.held,hp])] at hstep
    cases hstep
    exact ⟨h.once,h.held,h.faultless,h.alive,h.listens,h.runs,h.polls,
      fun l hl => ⟨by rw [hstage]; rfl,Or.inl (Option.some.inj hl).symm⟩⟩
  · cases hstep

theorem Sound.call (h : Sound s) {i n : Nat} {good : Prop} [Decidable good]
    (hi : s.sessions[i]? = some (some ⟨some n,true⟩))
    (hstep : (if good then some (Descriptors.use n s)
      else some (Descriptors.markClosed i ⟨some n,true⟩ (Descriptors.use n s))) = some t) :
    Sound t := by
  rw [use_held h.held (mem_session hi rfl)] at hstep
  split at hstep
  · cases hstep
    exact h
  · cases hstep
    exact h.markClosed hi

theorem Sound.read (h : Sound s) {i : Nat} {outcome : ReadOutcome}
    (hstep : Descriptors.step (.read i outcome) s = some t) : Sound t := by
  simp only [Descriptors.step] at hstep
  split at hstep
  · rename_i n hi
    exact h.call hi hstep
  · cases hstep

theorem Sound.write (h : Sound s) {i : Nat} {succeeded : Bool}
    (hstep : Descriptors.step (.write i succeeded) s = some t) : Sound t := by
  simp only [Descriptors.step] at hstep
  split at hstep
  · rename_i n hi
    exact h.call hi hstep
  · cases hstep
    exact h
  · cases hstep

theorem Sound.signal (h : Sound s) (hstep : Descriptors.step .signal s = some t) : Sound t := by
  simp only [Descriptors.step] at hstep
  split at hstep
  · cases hstep
    exact h.stop
  · cases hstep
    exact h.stop
  · cases hstep
    exact h.stop
  · cases hstep
    exact h.stop
  · cases hstep

theorem Sound.destroyServer (h : Sound s) (hstep : Descriptors.step .destroyServer s = some t) :
    Sound t := by
  have hdown : s.stage = .refused ∨ s.stage = .left →
      Sound { Descriptors.stop s with stage := .destroyed } := by
    intro hstage
    have hl : s.stage ≠ .listening := by rcases hstage with hs | hs <;> simp [hs]
    have ha : ¬ s.stage.entered = true := by
      rcases hstage with hs | hs <;> simp [hs,ListenStage.entered]
    have hb : s.stage ≠ .binding := by rcases hstage with hs | hs <;> simp [hs]
    have hr := h.notRunning hl ha
    rw [Descriptors.stop,hr]
    exact h.toStage hb hr ha
  simp only [Descriptors.step] at hstep
  split at hstep
  · rename_i hstage
    cases hstep
    exact hdown (Or.inl hstage)
  · rename_i hstage
    cases hstep
    exact hdown (Or.inr hstage)
  · cases hstep

theorem Sound.openFile (h : Sound s) {n : Nat}
    (hstep : Descriptors.step (.openFile n) s = some t) : Sound t := by
  obtain ⟨hfree,rfl⟩ := step_openFile hstep
  exact ⟨List.nodup_cons.mpr ⟨hfree,h.once⟩,(h.held.cons n).trans List.perm_middle.symm,
    h.faultless,h.alive,h.listens,h.runs,h.polls,h.passes⟩

theorem Sound.closeFile (h : Sound s) {n : Nat}
    (hstep : Descriptors.step (.closeFile n) s = some t) : Sound t := by
  obtain ⟨hfile,rfl⟩ := step_closeFile hstep
  have hmem : n ∈ s.held := List.mem_append_right _ hfile
  rw [close_held h.held hmem]
  refine ⟨h.once.erase n,perm_erase (h.held.trans ?_),h.faultless,h.alive,h.listens,h.runs,
    h.polls,h.passes⟩
  exact ((List.perm_cons_erase hfile).append_left _).trans List.perm_middle

theorem Sound.step (h : Sound s) {i : Step} (hstep : Descriptors.step i s = some t) : Sound t := by
  cases i with
  | socket result => exact h.socket hstep
  | listen succeeded => exact h.listen hstep
  | createPoll result => exact h.createPoll hstep
  | watch => exact h.watch hstep
  | addRead => exact h.addRead hstep
  | readable => exact h.readable hstep
  | accept result => exact h.accept hstep
  | read i outcome => exact h.read hstep
  | write i succeeded => exact h.write hstep
  | markClosed i =>
    simp only [Descriptors.step] at hstep
    split at hstep
    · rename_i session hi
      cases hstep
      exact h.markClosed hi
    · cases hstep
  | destroySession i =>
    simp only [Descriptors.step] at hstep
    split at hstep
    · rename_i session hi
      cases hstep
      exact h.destroySession hi
    · cases hstep
  | signal => exact h.signal hstep
  | destroyPoll => exact h.destroyPoll hstep
  | destroyServer => exact h.destroyServer hstep
  | openFile n => exact h.openFile hstep
  | closeFile n => exact h.closeFile hstep

theorem sound_moves {steps : List Step} (hrun : Runs.Moves step start steps s) : Sound s :=
  Runs.moves_invariant (fun _ _ _ _ hu hmove => hu.step hmove) sound_start hrun

end Descriptors
end VoltDBX
