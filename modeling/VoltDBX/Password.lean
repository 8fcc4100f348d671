import VoltDBX.Dispatcher

/-!
The password CONFIG reports and the password AUTH asks for.
-/

set_option autoImplicit false

namespace VoltDBX
open KeyedList

abbrev requirepass : Bytes := bytes "requirepass"

theorem bulkStringResponse_injective {p q : Bytes}
    (h : bulkStringResponse p = bulkStringResponse q) : p = q := by
  have hdigits : ∀ n : Nat, (13 : UInt8) ∉ Decimal.print n := fun n hmem =>
    absurd (Decimal.print_isDigit hmem) (by decide)
  have hbody : ∀ value : Bytes, bulkStringResponse value =
      bytes "$" ++ (Decimal.print value.length ++ 13 :: (lf :: value)) := by
    intro value
    simp [bulkStringResponse,crlf]
  rw [hbody,hbody] at h
  have hrest := List.append_cancel_left h
  have hsplit : ∀ value : Bytes, (Decimal.print value.length ++ 13 :: (lf :: value)).dropWhile
      (fun c => decide (c ≠ 13)) = 13 :: (lf :: value) := fun value =>
    (split_first (fun _ => rfl) (hdigits value.length) _).2
  have hdrop := congrArg (List.dropWhile (fun c => decide (c ≠ 13))) hrest
  rw [hsplit,hsplit] at hdrop
  simpa using hdrop

namespace RuntimeConfig

theorem get_requirepass_set (r : RuntimeConfig) (key value : Bytes) :
    (r.set key value).1.get requirepass =
      if key = requirepass then some value else r.get requirepass := by
  have hassign : (⟨r.defaults,assign key value r.overrides⟩ : RuntimeConfig).get requirepass =
      if key = requirepass then some value else r.get requirepass := by
    unfold get
    rw [find_assign]
    by_cases hkey : requirepass = key
    · rw [if_pos hkey,if_pos hkey.symm]
    · rw [if_neg hkey,if_neg (Ne.symm hkey)]
      rfl
  unfold set
  by_cases hfirst : key = bytes "requirepass" ∨ key = bytes "data_dir" ∨ key = bytes "host"
  · rw [if_pos hfirst]
    exact hassign
  · rw [if_neg hfirst]
    by_cases hsecond : key = bytes "max_clients" ∨ key = bytes "port" ∨
        key = bytes "snapshot_interval_sec"
    · rw [if_pos hsecond]
      exact hassign
    · have hkey : key ≠ requirepass := fun heq => hfirst (Or.inl heq)
      rw [if_neg hsecond,if_neg hkey]

def passwordSet : List Bytes → Option Bytes
  | [sub,key,value] => if sub = bytes "SET" ∧ key = requirepass then some value else none
  | _ => none

theorem get_requirepass_handleConfig (cmd : ParsedCommand) (r : RuntimeConfig) :
    (handleConfig cmd r).1.get requirepass = (passwordSet cmd.args).or (r.get requirepass) := by
  obtain ⟨type,name,args⟩ := cmd
  cases args with
  | nil => rfl
  | cons sub args =>
    cases args with
    | nil => rfl
    | cons key args =>
      cases args with
      | nil =>
        simp only [handleConfig,passwordSet,Option.none_or]
        split
        · cases r.get key with
          | none => rfl
          | some value => rfl
        · rfl
      | cons value args =>
        cases args with
        | nil =>
          have hset := r.get_requirepass_set key value
          simp only [handleConfig,passwordSet]
          by_cases hsub : sub = bytes "SET"
          · have hstate : (if (r.set key value).2 = true then ((r.set key value).1,okResponse)
                else ((r.set key value).1,errResponse "unsupported config key")).1 =
                (r.set key value).1 := by
              split
              · rfl
              · rfl
            rw [if_pos hsub,hstate,hset]
            by_cases hkey : key = requirepass
            · simp [hsub,hkey]
            · simp [hkey]
          · simp [hsub]
        | cons extra args => rfl

end RuntimeConfig

namespace Server
variable {hash : Bytes → Nat}

def lastPassword (inputs : List (Env × ParsedCommand)) : Option Bytes :=
  (inputs.filterMap (fun input =>
    if input.2.type = .config then RuntimeConfig.passwordSet input.2.args else none)).getLast?

theorem lastPassword_append (inputs : List (Env × ParsedCommand)) (input : Env × ParsedCommand) :
    lastPassword (inputs ++ [input]) =
      (if input.2.type = .config then RuntimeConfig.passwordSet input.2.args else none).or
        (lastPassword inputs) := by
  simp only [lastPassword,List.filterMap_append,List.getLast?_append]
  cases h : (if input.2.type = .config then RuntimeConfig.passwordSet input.2.args else none) with
  | none => simp [h]
  | some value => simp [h]

theorem auth_afterCommands (s : Server hash) (inputs : List (Env × ParsedCommand)) :
    (afterCommands s inputs).auth = s.auth := by
  induction inputs using List.reverseRecOn with
  | nil => rfl
  | append_singleton inputs input ih => rw [afterCommands_append,(parts_dispatch _ _ _).2.2,ih]

theorem requirepass_afterCommands (config : ServerConfig) (inputs : List (Env × ParsedCommand)) :
    (afterCommands (create hash config) inputs).runtime.get requirepass =
      some ((lastPassword inputs).getD config.requirepass) := by
  induction inputs using List.reverseRecOn with
  | nil => rfl
  | append_singleton inputs input ih =>
    rw [afterCommands_append,(parts_dispatch _ _ _).2.1,lastPassword_append]
    split
    · rw [RuntimeConfig.get_requirepass_handleConfig,ih]
      cases RuntimeConfig.passwordSet input.2.args with
      | none => rfl
      | some value => rfl
    · rw [ih,Option.none_or]

def Reports (s : Server hash) (p : Bytes) : Prop :=
  ∀ env name, ∃ t, (dispatch env ⟨.config,name,[bytes "GET",requirepass]⟩).run s =
    .ok (bulkStringResponse p) t

def Accepts (s : Server hash) (q : Bytes) : Prop :=
  ∀ env name, ∃ t, (dispatch env ⟨.auth,name,[q]⟩).run s = .ok okResponse t

/-- A password of its own is the only one accepted; an empty one lets every one pass. -/
def Governed (s : Server hash) (p : Bytes) : Prop :=
  (p ≠ [] → ∀ q, s.Accepts q ↔ q = p) ∧ (p = [] → ∀ q, s.Accepts q)

theorem reports_iff {s : Server hash} {w : Bytes} (h : s.runtime.get requirepass = some w)
    (p : Bytes) : s.Reports p ↔ w = p := by
  have hreply : ∀ env name, ∃ t, (dispatch env ⟨.config,name,[bytes "GET",requirepass]⟩).run s =
      .ok (bulkStringResponse w) t := by
    intro env name
    have hconfig : (handleConfig ⟨.config,name,[bytes "GET",requirepass]⟩ s.runtime).2 =
        bulkStringResponse w := by
      simp only [handleConfig,if_true,h]
    rw [← hconfig]
    exact ⟨_,rfl⟩
  constructor
  · intro hp
    obtain ⟨t,ht⟩ := hp ⟨fun _ => 0,.success⟩ []
    obtain ⟨u,hu⟩ := hreply ⟨fun _ => 0,.success⟩ []
    rw [hu,EStateM.Result.ok.injEq] at ht
    exact bulkStringResponse_injective ht.1
  · intro hp
    exact hp ▸ hreply

theorem accepts_iff (s : Server hash) (q : Bytes) :
    s.Accepts q ↔ s.auth.authenticate q = true := by
  have hreply : ∀ env name, ∃ t, (dispatch env ⟨.auth,name,[q]⟩).run s =
      .ok (if s.auth.authenticate q then okResponse else errResponse "invalid password") t :=
    fun env name => ⟨_,rfl⟩
  cases hq : s.auth.authenticate q with
  | true =>
    rw [hq] at hreply
    exact ⟨fun _ => rfl,fun _ => hreply⟩
  | false =>
    rw [hq] at hreply
    refine ⟨fun hok => ?_,fun h => absurd h (by decide)⟩
    obtain ⟨t,ht⟩ := hok ⟨fun _ => 0,.success⟩ []
    obtain ⟨u,hu⟩ := hreply ⟨fun _ => 0,.success⟩ []
    rw [hu,EStateM.Result.ok.injEq] at ht
    exact absurd ht.1 (by decide)

theorem authenticate_iff (g : AuthGate) (q : Bytes) :
    g.authenticate q = true ↔ g.password = [] ∨ g.password = q := by
  simp only [AuthGate.authenticate,AuthGate.enabled]
  by_cases hempty : g.password = []
  · simp [hempty]
  · simp [hempty]

theorem governed_iff (s : Server hash) (p : Bytes) : s.Governed p ↔ s.auth.password = p := by
  have hfresh : ∀ w : Bytes, ∃ q, q ≠ w := fun w => ⟨0 :: w,by simp⟩
  simp only [Governed,accepts_iff,authenticate_iff]
  cases hw : s.auth.password with
  | nil =>
    constructor
    · intro h
      by_contra hne
      obtain ⟨q,hq⟩ := hfresh p
      exact hq ((h.1 (Ne.symm hne) q).mp (by simp))
    · intro h
      subst h
      simp
  | cons c w =>
    constructor
    · intro h
      cases hp : p with
      | nil =>
        obtain ⟨q,hq⟩ := hfresh (c :: w)
        have hall := h.2 hp q
        simp [Ne.symm hq] at hall
      | cons d v =>
        have hself := (h.1 (by simp [hp]) (c :: w)).mp (by simp)
        rw [hself,hp]
    · intro h
      subst h
      refine ⟨fun _ q => ?_,fun hnil => absurd hnil (by simp)⟩
      simp [eq_comm]

/-- After any commands, CONFIG GET and AUTH agree on the password exactly where the last
CONFIG SET of it, if there was one, set the password the server was started with. -/
theorem passwords_agree_iff (hash : Bytes → Nat) (config : ServerConfig)
    (inputs : List (Env × ParsedCommand)) :
    (∀ p, (afterCommands (create hash config) inputs).Reports p ↔
      (afterCommands (create hash config) inputs).Governed p) ↔
    ∀ value, lastPassword inputs = some value → value = config.requirepass := by
  have hgate : (afterCommands (create hash config) inputs).auth.password = config.requirepass := by
    rw [auth_afterCommands]
    rfl
  have hreport := @reports_iff hash _ _ (requirepass_afterCommands config inputs)
  simp only [hreport,governed_iff,hgate]
  constructor
  · intro h value hvalue
    have hsame := (h value).mp (by rw [hvalue,Option.getD_some])
    exact hsame.symm
  · intro h p
    cases hlast : lastPassword inputs with
    | none => rfl
    | some value => rw [Option.getD_some,h value hlast]

/-- The operator sets a password. CONFIG GET shows it, and AUTH still lets anyone pass. -/
theorem changed_password_not_enforced :
    let inputs : List (Env × ParsedCommand) := [(⟨fun _ => 0,.success⟩,
      ⟨.config,bytes "CONFIG",[bytes "SET",requirepass,bytes "x"]⟩)]
    (afterCommands (create (fun _ => 0) {}) inputs).Reports (bytes "x") ∧
      ¬ (afterCommands (create (fun _ => 0) {}) inputs).Governed (bytes "x") := by
  intro inputs
  have hlast : lastPassword inputs = some (bytes "x") := by decide
  constructor
  · rw [reports_iff (requirepass_afterCommands _ inputs),hlast]
    rfl
  · rw [governed_iff,auth_afterCommands]
    exact fun h => absurd h (show ([] : Bytes) ≠ bytes "x" by decide)

end Server
end VoltDBX
