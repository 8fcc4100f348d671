import VoltDBX.Resp
import VoltDBX.Session

/-!
Replies on the wire. Each reply is the text of one value without its last line end;
`write_line` adds a newline unless the reply ends in one already, which is the end
the frame needs except behind a bulk string that is empty or ends in a newline itself.
-/

set_option autoImplicit false

namespace VoltDBX
open Resp (Value Clean OneLine Framed)
open ClientSession (payload)
open TextLines (Terminated)

/-- The reply is the text of the value, and what is sent for it is its frame. -/
structure Renders (reply : Bytes) (v : Value) : Prop where
  clean : Clean v
  text : v.text [] = reply
  sent : payload reply = v.text [lf]

theorem Renders.framed {reply : Bytes} {v : Value} (h : Renders reply v) : Framed (payload reply) := by
  rw [h.sent]
  exact Resp.framed_text h.clean .lf

theorem payload_of_last {line : Bytes} (h : line.getLast? = some lf) : payload line = line := by
  have hne : line ≠ [] := by
    intro hnil
    rw [hnil] at h
    cases h
  rw [payload,if_neg (by simp [hne,h])]

theorem payload_of_last_ne {line : Bytes} (h : line.getLast? ≠ some lf) :
    payload line = line ++ [lf] := by
  rw [payload,if_pos (Or.inr h)]

theorem last_ne_of_oneLine {line : Bytes} (h : OneLine line) : line.getLast? ≠ some lf := by
  intro hlast
  exact (h lf (List.mem_of_getLast? hlast)).1 rfl

theorem oneLine_append {a b : Bytes} (ha : OneLine a) (hb : OneLine b) : OneLine (a ++ b) := by
  intro c hc
  rcases List.mem_append.mp hc with hc | hc
  · exact ha c hc
  · exact hb c hc

theorem IsToken.oneLine {s : Bytes} (h : IsToken s) : OneLine s := by
  intro c hc
  have hsolid := h.solid c hc
  constructor
  · intro heq
    subst heq
    exact absurd hsolid (by decide)
  · intro heq
    subst heq
    exact absurd hsolid (by decide)

theorem renders_simple {line : Bytes} (h : OneLine line) : Renders (43 :: line) (.simple line) := by
  have hall : OneLine (43 :: line) := @oneLine_append [43] line (by decide) h
  exact ⟨.simple h,by simp [Value.text],payload_of_last_ne (last_ne_of_oneLine hall)⟩

theorem renders_ok : Renders okResponse (.simple (bytes "OK")) := renders_simple (by decide)

theorem renders_err {message : String} (h : OneLine (bytes message)) :
    Renders (errResponse message) (.error (bytes "ERR " ++ bytes message)) := by
  have hline : OneLine (bytes "ERR " ++ bytes message) := oneLine_append (by decide) h
  have hall : OneLine (errResponse message) := oneLine_append (by decide) h
  exact ⟨.error hline,by rw [Value.text,List.append_nil]; rfl,
    payload_of_last_ne (last_ne_of_oneLine hall)⟩

theorem renders_integer (v : Int) : Renders (integerResponse v) (.integer v) := by
  have hall : OneLine (integerResponse v) := oneLine_append (by decide) (Resp.oneLine_printInt v)
  exact ⟨.integer v,by rw [Value.text,List.append_nil]; rfl,
    payload_of_last_ne (last_ne_of_oneLine hall)⟩

theorem renders_null : Renders nullBulkResponse .null := ⟨.null,rfl,by decide⟩

theorem text_bulk (value : Bytes) : (Value.bulk value).text [] = bulkStringResponse value := by
  rw [Value.text,List.append_nil]
  rfl

theorem last_bulk (value : Bytes) :
    (bulkStringResponse value).getLast? = some lf ↔ Terminated lf value := by
  rw [bulkStringResponse,List.getLast?_append]
  unfold Terminated
  cases hlast : value.getLast? with
  | none =>
    rw [List.getLast?_eq_none_iff] at hlast
    simp [hlast,crlf]
  | some c =>
    have hne : value ≠ [] := by
      intro hnil
      rw [hnil] at hlast
      cases hlast
    simp [hne]

theorem renders_bulk {value : Bytes} (h : ¬ Terminated lf value) :
    Renders (bulkStringResponse value) (.bulk value) := by
  refine ⟨.bulk value,text_bulk value,?_⟩
  rw [payload_of_last_ne (fun hlast => h ((last_bulk value).mp hlast)),← text_bulk value]
  simp [Value.text]

theorem framed_bulk_iff (value : Bytes) :
    Framed (payload (bulkStringResponse value)) ↔ ¬ Terminated lf value := by
  constructor
  · intro hframed hterm
    rw [payload_of_last ((last_bulk value).mpr hterm),← text_bulk value] at hframed
    exact Resp.not_framed_bulk value hframed
  · intro hterm
    exact (renders_bulk hterm).framed

def Closing (value : Option Bytes) : Prop := ∀ v, value = some v → ¬ Terminated lf v

def optionalValue : Option Bytes → Value
  | none => .null
  | some value => .bulk value

theorem renders_optional {value : Option Bytes} (h : Closing value) :
    Renders (optionalResponse value) (optionalValue value) := by
  cases value with
  | none => exact renders_null
  | some value => exact renders_bulk (h value rfl)

theorem text_optional (value : Option Bytes) (e : Bytes) :
    (optionalValue value).text e = optionalResponse value ++ e := by
  cases value with
  | none => rfl
  | some value =>
    rw [optionalValue,optionalResponse,← text_bulk]
    simp [Value.text]

theorem text_array (items : List Value) (e : Bytes) :
    (Value.array items).text e = bytes "*" ++ Decimal.print items.length ++ crlf ++
      items.flatMap (fun v => v.text crlf) := by
  rw [Value.text,Resp.texts_eq_flatMap]
  rfl

theorem text_bulks (keys : List Bytes) (e : Bytes) :
    (Value.array (keys.map Value.bulk)).text e = bytes "*" ++ Decimal.print keys.length ++ crlf ++
      keys.flatMap (fun key => bulkStringResponse key ++ crlf) := by
  have hbulk : ∀ key : Bytes, (Value.bulk key).text crlf = bulkStringResponse key ++ crlf :=
    fun key => text_optional (some key) crlf
  rw [text_array,List.length_map,List.flatMap_map]
  simp only [hbulk]

theorem text_optionals (values : List (Option Bytes)) (e : Bytes) :
    (Value.array (values.map optionalValue)).text e = bytes "*" ++ Decimal.print values.length ++
      crlf ++ values.flatMap (fun value => optionalResponse value ++ crlf) := by
  rw [text_array,List.length_map,List.flatMap_map]
  simp only [text_optional]

theorem text_scan (next : Bytes) (keys : List Bytes) (e : Bytes) :
    (Value.array [.bulk next,.array (keys.map Value.bulk)]).text e = scanResponse next keys := by
  have htwo : bytes "*" ++ Decimal.print 2 = bytes "*2" := by decide
  have hnext : (Value.bulk next).text crlf = bulkStringResponse next ++ crlf :=
    text_optional (some next) crlf
  rw [text_array,List.flatMap_cons,List.flatMap_singleton,hnext,text_bulks,scanResponse,← htwo]
  simp only [List.append_assoc,List.length_cons,List.length_nil]

theorem clean_optional (value : Option Bytes) : Clean (optionalValue value) := by
  cases value with
  | none => exact .null
  | some value => exact .bulk value

theorem renders_array {items : List Value} (h : ∀ v ∈ items, Clean v) :
    Renders ((Value.array items).text []) (.array items) := by
  have hclean : Clean (.array items) := .array h
  have hlast := Resp.last_text hclean .lf
  exact ⟨hclean,rfl,payload_of_last hlast⟩

section
variable {hash : Bytes → Nat}

/-- What a run returns is a reply with a frame of its own. -/
def Answers {σ : Type} (r : EStateM.Result Raised σ Bytes) : Prop :=
  OnReturn (fun reply _ => ∃ v, Renders reply v) r

theorem renders_handleGet {now : Int} {cmd : ParsedCommand} {storage : StorageEngine hash}
    (h : ∀ key, cmd.args = [key] → Closing (storage.get now key)) :
    ∃ v, Renders (handleGet now cmd storage) v := by
  unfold handleGet
  split
  · rename_i key hkey
    exact ⟨_,renders_optional (h key hkey)⟩
  · exact ⟨_,renders_err (by decide)⟩

theorem renders_handleMget (clock : Nat → Int) (cmd : ParsedCommand) (storage : StorageEngine hash) :
    ∃ v, Renders (handleMget clock cmd storage) v := by
  unfold handleMget
  split
  · exact ⟨_,renders_err (by decide)⟩
  · dsimp only
    generalize BatchOperations.mget storage clock _ = values
    refine ⟨.array (values.map optionalValue),?_⟩
    rw [← text_optionals values []]
    refine renders_array fun v hv => ?_
    obtain ⟨value,-,rfl⟩ := List.mem_map.mp hv
    exact clean_optional value

theorem renders_scan (next : Bytes) (keys : List Bytes) :
    Renders (scanResponse next keys) (.array [.bulk next,.array (keys.map Value.bulk)]) := by
  have hkeys : ∀ v ∈ keys.map Value.bulk, Clean v := by
    intro v hv
    obtain ⟨key,-,rfl⟩ := List.mem_map.mp hv
    exact .bulk key
  rw [← text_scan next keys []]
  refine renders_array fun v hv => ?_
  rcases List.mem_cons.mp hv with rfl | hv
  · exact .bulk next
  · rw [List.mem_singleton.mp hv]
    exact .array hkeys

theorem answers_handleScan (cmd : ParsedCommand) (storage : StorageEngine hash) :
    Answers ((converting (handleScan cmd)).run storage) := by
  have hreply : ∀ reply, handleScan cmd storage = .ok reply → ∃ v, Renders reply v := by
    intro reply h
    unfold handleScan at h
    split at h
    · cases h
      exact ⟨_,renders_err (by decide)⟩
    · rename_i token options _
      cases hcursor : decodeScanCursor token with
      | error x =>
        rw [hcursor] at h
        cases h
      | ok cursor =>
        cases hoptions : scanOptions options 10 (bytes "*") with
        | error x =>
          rw [hcursor,hoptions] at h
          cases h
        | ok chosen =>
          rw [hcursor,hoptions] at h
          cases h
          exact ⟨_,renders_scan _ _⟩
  rw [run_converting]
  cases hscan : handleScan cmd storage with
  | error x => trivial
  | ok reply => exact hreply reply hscan

theorem answers_counted (now : Int) (key : Bytes) (delta : Int) (storage : StorageEngine hash) :
    Answers (counted now key delta storage) := by
  unfold counted
  cases CounterStore.parseValue (storage.get now key) with
  | error x => trivial
  | ok current => exact ⟨_,renders_integer _⟩

theorem answers_handleIncr (now : Int) (cmd : ParsedCommand) (storage : StorageEngine hash) :
    Answers ((handleIncr now cmd).run storage) := by
  rw [run_handleIncr]
  split
  · exact answers_counted now _ 1 storage
  · exact ⟨_,renders_err (by decide)⟩

theorem answers_handleDecr (now : Int) (cmd : ParsedCommand) (storage : StorageEngine hash) :
    Answers ((handleDecr now cmd).run storage) := by
  rw [run_handleDecr]
  split
  · exact answers_counted now _ (-1) storage
  · exact ⟨_,renders_err (by decide)⟩

theorem answers_handleIncrby (now : Int) (cmd : ParsedCommand) (storage : StorageEngine hash) :
    Answers ((handleIncrby now cmd).run storage) := by
  rw [run_handleIncrby]
  split
  · rename_i key amount _
    cases stoll amount with
    | error x => trivial
    | ok delta => exact answers_counted now key delta storage
  · exact ⟨_,renders_err (by decide)⟩

theorem answers_handleExpire (now : Int) (cmd : ParsedCommand) (storage : StorageEngine hash) :
    Answers ((handleExpire now cmd).run storage) := by
  rw [run_handleExpire]
  split
  · rename_i key ttl _
    cases stoll ttl with
    | error x => trivial
    | ok seconds => exact ⟨_,renders_integer _⟩
  · exact ⟨_,renders_err (by decide)⟩

theorem renders_handleSet (cmd : ParsedCommand) (storage : StorageEngine hash) :
    ∃ v, Renders (handleSet cmd storage).2 v := by
  unfold handleSet
  split
  · exact ⟨_,renders_ok⟩
  · exact ⟨_,renders_err (by decide)⟩

theorem renders_handleMset (cmd : ParsedCommand) (storage : StorageEngine hash) :
    ∃ v, Renders (handleMset cmd storage).2 v := by
  unfold handleMset
  split
  · exact ⟨_,renders_err (by decide)⟩
  · exact ⟨_,renders_ok⟩

theorem renders_handleDelete (cmd : ParsedCommand) (storage : StorageEngine hash) :
    ∃ v, Renders (handleDelete cmd storage).2 v := by
  unfold handleDelete
  split
  · exact ⟨_,renders_integer _⟩
  · exact ⟨_,renders_err (by decide)⟩

theorem renders_handleExists (cmd : ParsedCommand) (storage : StorageEngine hash) :
    ∃ v, Renders (handleExists cmd storage) v := by
  unfold handleExists
  split
  · exact ⟨_,renders_err (by decide)⟩
  · exact ⟨_,renders_integer _⟩

theorem renders_handleBgrewriteaof (outcome : RewriteOutcome) (aof : AofLog)
    (storage : StorageEngine hash) :
    ∃ v, Renders (handleBgrewriteaof outcome aof storage).2 v := by
  unfold handleBgrewriteaof
  dsimp only
  split
  · have hline : ∀ before after : Nat, OneLine (bytes "OK rewritten bytes_before=" ++
        Decimal.print before ++ bytes " bytes_after=" ++ Decimal.print after) := fun before after =>
      oneLine_append (oneLine_append (oneLine_append (by decide) (Resp.oneLine_print before))
        (by decide)) (Resp.oneLine_print after)
    exact ⟨_,renders_simple (hline _ _)⟩
  · exact ⟨_,renders_err (by decide)⟩

end

theorem renders_handleSubscribe {cmd : ParsedCommand} (hargs : ∀ a ∈ cmd.args, IsToken a)
    (broker : PubSubBroker) : ∃ v, Renders (handleSubscribe cmd broker).2 v := by
  unfold handleSubscribe
  split
  · rename_i channel hchannel
    have hline : OneLine (bytes "OK" ++ bytes " subscribed " ++ channel) :=
      oneLine_append (by decide) (hargs channel (by simp [hchannel])).oneLine
    exact ⟨_,renders_simple hline⟩
  · exact ⟨_,renders_err (by decide)⟩

theorem renders_handlePublish (cmd : ParsedCommand) (broker : PubSubBroker) :
    ∃ v, Renders (handlePublish cmd broker).2 v := by
  unfold handlePublish
  split
  · exact ⟨_,renders_integer _⟩
  · exact ⟨_,renders_err (by decide)⟩

theorem renders_handleAuth (cmd : ParsedCommand) (gate : AuthGate) :
    ∃ v, Renders (handleAuth cmd gate) v := by
  unfold handleAuth
  split
  · split
    · exact ⟨_,renders_ok⟩
    · exact ⟨_,renders_err (by decide)⟩
  · exact ⟨_,renders_err (by decide)⟩

theorem terminated_dump (runtime : RuntimeConfig) : Terminated lf runtime.dump := by
  unfold RuntimeConfig.dump RuntimeConfig.dumpLine
  rw [← List.append_assoc]
  exact TextLines.terminated_line lf _

theorem renders_handleConfig {cmd : ParsedCommand} {runtime : RuntimeConfig}
    (hne : cmd.args ≠ [])
    (hget : ∀ key, cmd.args = [bytes "GET",key] → Closing (runtime.get key)) :
    ∃ v, Renders (handleConfig cmd runtime).2 v := by
  unfold handleConfig
  split
  · rename_i hnil
    exact absurd hnil hne
  · rename_i sub key hargs
    by_cases hsub : sub = bytes "GET"
    · have hclosing := hget key (by rw [hargs,hsub])
      rw [if_pos hsub]
      cases hvalue : runtime.get key with
      | none => exact ⟨_,renders_err (by decide)⟩
      | some value => exact ⟨_,renders_bulk (hclosing value hvalue)⟩
    · rw [if_neg hsub]
      exact ⟨_,renders_err (by decide)⟩
  · split
    · split
      · exact ⟨_,renders_ok⟩
      · exact ⟨_,renders_err (by decide)⟩
    · exact ⟨_,renders_err (by decide)⟩
  · exact ⟨_,renders_err (by decide)⟩

theorem closing_of_handleConfig {cmd : ParsedCommand} {runtime : RuntimeConfig}
    (h : Framed (payload (handleConfig cmd runtime).2)) :
    cmd.args ≠ [] ∧ ∀ key, cmd.args = [bytes "GET",key] → Closing (runtime.get key) := by
  constructor
  · intro hnil
    have hreply : (handleConfig cmd runtime).2 = bulkStringResponse runtime.dump := by
      simp only [handleConfig,hnil]
    rw [hreply] at h
    exact (framed_bulk_iff _).mp h (terminated_dump runtime)
  · intro key hargs value hvalue
    have hreply : (handleConfig cmd runtime).2 = bulkStringResponse value := by
      simp only [handleConfig,hargs,if_true,hvalue]
    rw [hreply] at h
    exact (framed_bulk_iff _).mp h

theorem not_framed_renderInfo (m : MetricsCollector) : ¬ Framed (payload m.renderInfo) := by
  have hsplit : ∃ more, m.renderInfo =
      (Value.simple (bytes "INFO voltdbx")).text [10] ++ (more ++ [lf]) := by
    refine ⟨MetricsCollector.infoLine "memory_bytes:" m.memoryBytes ++
      (MetricsCollector.infoLine "active_clients:" m.activeClients ++
        (MetricsCollector.infoLine "commands_processed:" m.commands ++
          (MetricsCollector.infoLine "keys_stored:" m.keysStored ++
            (bytes "commands_per_sec:" ++ Decimal.print 0)))),?_⟩
    simp only [MetricsCollector.renderInfo,MetricsCollector.infoLine,List.append_assoc]
    rfl
  obtain ⟨more,hmore⟩ := hsplit
  have hlast : m.renderInfo.getLast? = some lf := by rw [hmore,← List.append_assoc]; simp
  rw [payload_of_last hlast,hmore]
  exact Resp.not_framed_simple (by decide) (by simp)

namespace Server
variable {hash : Bytes → Nat}

/-- The replies whose last line end is missing or not the last: INFO, CONFIG without
arguments, and values read by GET or CONFIG GET that take no newline. -/
structure Framable (s : Server hash) (input : Env × ParsedCommand) : Prop where
  info : input.2.type ≠ .info
  stored : input.2.type = .get → ∀ key, input.2.args = [key] →
    Closing (s.storage.get (input.1.clock 0) key)
  dump : input.2.type = .config → input.2.args ≠ []
  setting : input.2.type = .config → ∀ key, input.2.args = [bytes "GET",key] →
    Closing (s.runtime.get key)

theorem Framable.of_type {s : Server hash} {input : Env × ParsedCommand}
    (hinfo : input.2.type ≠ .info) (hget : input.2.type ≠ .get) (hconfig : input.2.type ≠ .config) :
    Framable s input where
  info := hinfo
  stored h := absurd h hget
  dump h := absurd h hconfig
  setting h := absurd h hconfig

theorem answers_dispatch {env : Env} {cmd : ParsedCommand} {s : Server hash}
    (hargs : ∀ a ∈ cmd.args, IsToken a) (h : Framable s (env,cmd)) :
    Answers ((dispatch env cmd).run s) := by
  rw [run_dispatch]
  cases ht : cmd.type
  case unknown =>
    show ∃ v, Renders (errResponse "unknown command") v
    exact ⟨_,renders_err (by decide)⟩
  case ping => exact ⟨_,renders_simple (by decide)⟩
  case info => exact absurd ht h.info
  case get => exact onReturn_focus (renders_handleGet (h.stored ht))
  case delete => exact onReturn_focus (renders_handleDelete cmd _)
  case exist => exact onReturn_focus (renders_handleExists cmd _)
  case subscribe => exact onReturn_focus (renders_handleSubscribe hargs _)
  case publish => exact onReturn_focus (renders_handlePublish cmd _)
  case expire => exact onReturn_focus (answers_handleExpire _ cmd _)
  case mget => exact onReturn_focus (renders_handleMget _ cmd _)
  case mset => exact onReturn_focus (renders_handleMset cmd _)
  case incr => exact onReturn_focus (answers_handleIncr _ cmd _)
  case decr => exact onReturn_focus (answers_handleDecr _ cmd _)
  case incrby => exact onReturn_focus (answers_handleIncrby _ cmd _)
  case scan => exact onReturn_focus (answers_handleScan cmd _)
  case auth => exact renders_handleAuth cmd _
  case config => exact onReturn_focus (renders_handleConfig (h.dump ht) (h.setting ht))
  case flushdb => exact onReturn_focus ⟨_,renders_ok⟩
  case dbsize => exact onReturn_focus ⟨_,renders_integer _⟩
  case bgrewriteaof => exact renders_handleBgrewriteaof _ _ _
  case set => exact onReturn_focus (renders_handleSet cmd _)

theorem framable_of_framed {env : Env} {cmd : ParsedCommand} {s : Server hash} :
    OnReturn (fun reply _ => Framed (payload reply) → Framable s (env,cmd))
      ((dispatch env cmd).run s) := by
  rw [run_dispatch]
  cases ht : cmd.type
  case info => exact fun h => absurd h (not_framed_renderInfo _)
  case get =>
    refine onReturn_focus fun h => ⟨by simp [ht],fun _ key hargs value hvalue => ?_,by simp [ht],by simp [ht]⟩
    have hreply : handleGet (env.clock 0) cmd s.recordCommand.storage = bulkStringResponse value := by
      have hget : s.recordCommand.storage.get (env.clock 0) key = some value := hvalue
      simp only [handleGet,show cmd.args = [key] from hargs,hget,optionalResponse]
    rw [hreply] at h
    exact (framed_bulk_iff value).mp h
  case config =>
    refine onReturn_focus fun h => ?_
    obtain ⟨hne,hget⟩ := closing_of_handleConfig h
    exact ⟨by simp [ht],by simp [ht],fun _ => hne,fun _ => hget⟩
  all_goals
    exact OnReturn.intro fun _ _ _ _ => .of_type (by simp [ht]) (by simp [ht]) (by simp [ht])

theorem run_renders {inputs : List (Env × ParsedCommand)} {s t : Server hash} {replies : List Bytes}
    (hargs : ∀ input ∈ inputs, ∀ a ∈ input.2.args, IsToken a)
    (h : Runs.Along plain Framable s inputs)
    (hrun : (Runs.runAll plain inputs).run s = .ok replies t) :
    ∃ values, List.Forall₂ Renders replies values := by
  induction inputs generalizing s replies with
  | nil =>
    cases hrun
    exact ⟨[],.nil⟩
  | cons input inputs ih =>
    obtain ⟨reply,u,rest,hi,hrest,rfl⟩ := Runs.runAll_cons.mp hrun
    obtain ⟨v,hv⟩ := (answers_dispatch (hargs input (by simp)) h.1).of_ok hi
    obtain ⟨values,hvalues⟩ := ih (fun i hmem => hargs i (by simp [hmem])) (h.2 reply u hi) hrest
    exact ⟨v :: values,.cons hv hvalues⟩

theorem along_of_framed {inputs : List (Env × ParsedCommand)} {s t : Server hash}
    {replies : List Bytes} (h : ∀ reply ∈ replies, Framed (payload reply))
    (hrun : (Runs.runAll plain inputs).run s = .ok replies t) :
    Runs.Along plain Framable s inputs := by
  induction inputs generalizing s replies with
  | nil => trivial
  | cons input inputs ih =>
    obtain ⟨reply,u,rest,hi,hrest,rfl⟩ := Runs.runAll_cons.mp hrun
    refine ⟨framable_of_framed.of_ok hi (h reply (by simp)),fun reply' u' hi' => ?_⟩
    rw [hi] at hi'
    cases hi'
    exact ih (fun r hr => h r (by simp [hr])) hrest

end Server

theorem decode_of_renders {replies : List Bytes} {values : List Value}
    (h : List.Forall₂ Renders replies values) :
    Resp.decode (replies.flatMap payload) = some values ∧
      values.map (fun v => v.text []) = replies := by
  have hsplit : (∀ v ∈ values, Clean v) ∧
      replies.flatMap payload = values.flatMap (fun v => v.text [lf]) ∧
      values.map (fun v => v.text []) = replies := by
    induction h with
    | nil => exact ⟨by simp,rfl,rfl⟩
    | cons hv _ ih =>
      obtain ⟨hclean,hsent,htext⟩ := ih
      refine ⟨?_,?_,?_⟩
      · intro w hw
        rcases List.mem_cons.mp hw with rfl | hw
        · exact hv.clean
        · exact hclean w hw
      · rw [List.flatMap_cons,List.flatMap_cons,hv.sent,hsent]
      · rw [List.map_cons,hv.text,htext]
  obtain ⟨hclean,hsent,htext⟩ := hsplit
  rw [hsent]
  exact ⟨Resp.decode_texts hclean .lf,htext⟩

theorem Renders.all_framed {replies : List Bytes} {values : List Value}
    (h : List.Forall₂ Renders replies values) : ∀ reply ∈ replies, Framed (payload reply) := by
  induction h with
  | nil => simp
  | cons hv _ ih =>
    intro reply hmem
    rcases List.mem_cons.mp hmem with rfl | hmem
    · exact hv.framed
    · exact ih reply hmem

namespace Server
variable {hash : Bytes → Nat}

/-- Every reply of a run is one frame exactly when none of its commands is one of those
left out, and then the stream of replies decodes to the replies. -/
theorem replies_are_frames {inputs : List (Env × ParsedCommand)} {s t : Server hash}
    {replies : List Bytes} (hparsed : ∀ input ∈ inputs, ∃ line, parseLine line = some input.2)
    (hrun : (Runs.runAll plain inputs).run s = .ok replies t) :
    ((∀ reply ∈ replies, Framed (payload reply)) ↔ Runs.Along plain Framable s inputs) ∧
      (Runs.Along plain Framable s inputs →
        ∃ values, Resp.decode (replies.flatMap payload) = some values ∧
          values.map (fun v => v.text []) = replies) := by
  have hargs : ∀ input ∈ inputs, ∀ a ∈ input.2.args, IsToken a := by
    intro input hmem
    obtain ⟨line,hline⟩ := hparsed input hmem
    exact parseLine_args hline
  refine ⟨⟨fun h => along_of_framed h hrun,fun h => ?_⟩,fun h => ?_⟩
  · obtain ⟨values,hvalues⟩ := run_renders hargs h hrun
    exact Renders.all_framed hvalues
  · obtain ⟨values,hvalues⟩ := run_renders hargs h hrun
    exact ⟨values,decode_of_renders hvalues⟩

theorem replies_are_frames_example :
    let env : Env := ⟨fun _ => 0,.success⟩
    let inputs : List (Env × ParsedCommand) :=
      [(env,⟨.set,bytes "SET",[bytes "k",bytes "v"]⟩),(env,⟨.get,bytes "GET",[bytes "k"]⟩)]
    ∃ replies t, (Runs.runAll plain inputs).run (create (fun _ => 0) {}) = .ok replies t ∧
      (∀ reply ∈ replies, Framed (payload reply)) ∧
      ∃ values, Resp.decode (replies.flatMap payload) = some values ∧
        values.map (fun v => v.text []) = replies := by
  intro env inputs
  generalize create (fun _ => 0) {} = s
  have hparsed : ∀ input ∈ inputs, ∃ line, parseLine line = some input.2 := by
    intro input hmem
    simp only [inputs,List.mem_cons,List.not_mem_nil,or_false] at hmem
    rcases hmem with rfl | rfl
    · exact ⟨bytes "SET k v",by decide⟩
    · exact ⟨bytes "GET k",by decide⟩
  have hset : ∀ o t, (plain (env,⟨.set,bytes "SET",[bytes "k",bytes "v"]⟩)).run s = .ok o t →
      t.storage.get (env.clock 0) (bytes "k") = some (bytes "v") := by
    intro o t ht
    have hrun : (plain (env,⟨.set,bytes "SET",[bytes "k",bytes "v"]⟩)).run s =
        .ok okResponse { s.recordCommand with
          storage := (s.storage.set (bytes "k") (bytes "v")).1 } := rfl
    rw [hrun,EStateM.Result.ok.injEq] at ht
    rw [← ht.2,StorageEngine.get_eq,StorageEngine.toMap_set]
    simp [Map.valueAt,StorageEntry.live]
  have halong : Runs.Along plain Framable s inputs := by
    refine ⟨.of_type (by decide) (by decide) (by decide),fun o t ht => ⟨⟨by decide,
      fun _ key hkey value hvalue => ?_,by simp,by simp⟩,fun _ _ _ => trivial⟩⟩
    have hk : bytes "k" = key := (List.cons.inj hkey).1
    rw [← hk,hset o t ht,Option.some.injEq] at hvalue
    rw [← hvalue]
    unfold Terminated
    decide
  have hrun : ∃ replies t, (Runs.runAll plain inputs).run s = .ok replies t := ⟨_,_,rfl⟩
  obtain ⟨replies,t,hrun⟩ := hrun
  have hframes := replies_are_frames hparsed hrun
  exact ⟨replies,t,hrun,hframes.1.mpr halong,hframes.2 halong⟩

/-- INFO, CONFIG, and CONFIG GET of the empty password, on a server just started. -/
theorem replies_without_frame :
    let env : Env := ⟨fun _ => 0,.success⟩
    let s := create (fun _ => 0) {}
    let info : ParsedCommand := ⟨.info,bytes "INFO",[]⟩
    let config : ParsedCommand := ⟨.config,bytes "CONFIG",[]⟩
    let password : ParsedCommand := ⟨.config,bytes "CONFIG",[bytes "GET",bytes "requirepass"]⟩
    parseLine (bytes "INFO") = some info ∧ parseLine (bytes "CONFIG") = some config ∧
      parseLine (bytes "CONFIG GET requirepass") = some password ∧
      (∃ reply t, (dispatch env info).run s = .ok reply t ∧ ¬ Framed (payload reply)) ∧
      (∃ reply t, (dispatch env config).run s = .ok reply t ∧ ¬ Framed (payload reply)) ∧
      ∃ reply t, (dispatch env password).run s = .ok reply t ∧ ¬ Framed (payload reply) := by
  intro env s info config password
  have hpass : s.runtime.get (bytes "requirepass") = some [] := by decide
  generalize s = u at hpass ⊢
  have hno : ∀ cmd : ParsedCommand, ¬ Framable u (env,cmd) → ∀ reply t,
      (dispatch env cmd).run u = .ok reply t → ¬ Framed (payload reply) :=
    fun _ hnot _ _ hrun h => hnot (framable_of_framed.of_ok hrun h)
  have hinfo := hno info fun h => h.info rfl
  have hconfig := hno config fun h => h.dump rfl rfl
  have hpassword := hno password fun h => h.setting rfl _ rfl [] hpass (Or.inl rfl)
  exact ⟨by decide,by decide,by decide,⟨_,_,rfl,hinfo _ _ rfl⟩,⟨_,_,rfl,hconfig _ _ rfl⟩,
    ⟨_,_,rfl,hpassword _ _ rfl⟩⟩

end Server
end VoltDBX
