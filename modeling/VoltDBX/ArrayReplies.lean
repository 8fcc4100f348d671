import VoltDBX.Framing
import VoltDBX.ScanIteration

/-!
The array replies of MGET and SCAN, read back by a decoder that insists on CRLF behind
every header and every element.
-/

set_option autoImplicit false

namespace VoltDBX
open Resp (Value Reads readMany reads_many)

/-- A null, a bulk string or an array of such elements; the fuel bounds the nesting. -/
def readElement : Nat → Bytes → Option (Value × Bytes)
  | 0, _ => none
  | fuel+1, s =>
    if s.take 5 = bytes "$-1" ++ crlf then some (.null,s.drop 5)
    else match readBulk s with
      | some (data,rest) => some (.bulk data,rest)
      | none => do
        let (n,rest) ← readCount 42 s
        let (items,rest) ← readMany (readElement fuel) n rest
        some (.array items,rest)

/-- The one element a reply consists of, with no byte left over. -/
def decodeReply (s : Bytes) : Option Value :=
  match readElement s.length s with
  | some (v,[]) => some v
  | _ => none

theorem decodeReply_of_reads {v : Value} {s : Bytes} (h : Reads (readElement s.length) v s) :
    decodeReply s = some v := by
  have hall := h []
  rw [List.append_nil] at hall
  simp [decodeReply,hall]

theorem reads_null (fuel : Nat) :
    Reads (readElement (fuel+1)) .null (nullBulkResponse ++ crlf) := by
  intro rest
  have htext : nullBulkResponse ++ crlf = bytes "$-1" ++ crlf := rfl
  have hlen : (bytes "$-1" ++ crlf).length = 5 := by decide
  rw [htext,readElement,← hlen,List.take_left,List.drop_left,if_pos rfl]

theorem take_bulk_ne (value rest : Bytes) :
    (bulkStringResponse value ++ crlf ++ rest).take 5 ≠ bytes "$-1" ++ crlf := by
  intro h
  have hhead := Resp.print_head_ne value.length
  have hdollar : bytes "$" = [36] := by decide
  have hsecond := congrArg (fun l => l[1]?) h
  cases hp : Decimal.print value.length with
  | nil => exact Decimal.print_ne_nil _ hp
  | cons c cs =>
    have hminus : c = 45 := by
      have hright : (bytes "$-1" ++ crlf)[1]? = some 45 := by decide
      simpa [bulkStringResponse,hdollar,hp,hright] using hsecond
    exact hhead (by rw [hp,hminus]; rfl)

theorem reads_optional (fuel : Nat) (value : Option Bytes) :
    Reads (readElement (fuel+1)) (optionalValue value) ((optionalValue value).text crlf) := by
  rw [text_optional]
  cases value with
  | none => exact reads_null fuel
  | some value =>
    intro rest
    rw [optionalResponse,readElement,if_neg (take_bulk_ne value rest),
      readBulk_bulkStringResponse]
    rfl

theorem reads_array {fuel : Nat} {items : List Value}
    (h : ∀ v ∈ items, Reads (readElement fuel) v (v.text crlf)) (e : Bytes) :
    Reads (readElement (fuel+1)) (.array items) ((Value.array items).text e) := by
  intro rest
  have hstar : bytes "*" = [42] := by decide
  have htext : (Value.array items).text e ++ rest = 42 :: (Decimal.print items.length ++ crlf ++
      (items.flatMap (fun v => v.text crlf) ++ rest)) := by
    rw [text_array,hstar]
    simp
  rw [htext]
  generalize hbody : items.flatMap (fun v => v.text crlf) ++ rest = body
  have hnull : (42 :: (Decimal.print items.length ++ crlf ++ body)).take 5 ≠
      bytes "$-1" ++ crlf := by
    intro heq
    have hhead := congrArg List.head? heq
    have hright : (bytes "$-1" ++ crlf).head? = some 36 := by decide
    simp [hright] at hhead
  have hbulk : readBulk (42 :: (Decimal.print items.length ++ crlf ++ body)) = none := by
    simp [readBulk,readCount]
  have hitems := reads_many h rest
  rw [hbody] at hitems
  rw [readElement,if_neg hnull,hbulk]
  simp only [readCount_print,Option.bind_eq_bind,Option.bind_some,hitems]

theorem decodeReply_array {items : List Value}
    (h : ∀ fuel, ∀ v ∈ items, Reads (readElement (fuel+2)) v (v.text crlf)) (e : Bytes) :
    decodeReply ((Value.array items).text e) = some (.array items) := by
  have hlen : 3 ≤ ((Value.array items).text e).length := by
    have hprint := List.length_pos_iff.mpr (Decimal.print_ne_nil items.length)
    have hcrlf : crlf.length = 2 := rfl
    rw [text_array]
    simp only [List.length_append,hcrlf]
    omega
  obtain ⟨fuel,hfuel⟩ := Nat.exists_eq_add_of_le hlen
  refine decodeReply_of_reads ?_
  rw [hfuel,Nat.add_comm]
  exact reads_array (h fuel) e

section
variable {hash : Bytes → Nat}

theorem decodeReply_handleMget (clock : Nat → Int) {cmd : ParsedCommand} (hargs : cmd.args ≠ [])
    (storage : StorageEngine hash) :
    decodeReply (handleMget clock cmd storage) =
      some (.array (cmd.args.zipIdx.map fun k => optionalValue (storage.get (clock k.2) k.1))) := by
  have hreply : handleMget clock cmd storage =
      (Value.array ((BatchOperations.mget storage clock cmd.args).map optionalValue)).text [] := by
    rw [text_optionals]
    unfold handleMget
    split
    · rename_i hnil
      exact absurd hnil hargs
    · rfl
  have hvalues : (cmd.args.zipIdx.map fun k => optionalValue (storage.get (clock k.2) k.1)) =
      (BatchOperations.mget storage clock cmd.args).map optionalValue := by
    simp [BatchOperations.mget]
  rw [hreply,hvalues]
  refine decodeReply_array ?_ []
  intro fuel v hv
  obtain ⟨value,-,rfl⟩ := List.mem_map.mp hv
  exact reads_optional (fuel+1) value

theorem decodeReply_scanResponse (next : Bytes) (keys : List Bytes) :
    decodeReply (scanResponse next keys) =
      some (.array [.bulk next,.array (keys.map Value.bulk)]) := by
  rw [← text_scan next keys []]
  refine decodeReply_array ?_ []
  intro fuel v hv
  rcases List.mem_cons.mp hv with rfl | hv
  · exact reads_optional (fuel+1) (some next)
  · rw [List.mem_singleton.mp hv]
    refine reads_array ?_ crlf
    intro w hw
    obtain ⟨key,-,rfl⟩ := List.mem_map.mp hw
    exact reads_optional fuel (some key)

/-- The reply to MGET decodes to what `get` gives for each key, in the order of the keys, and
the reply to SCAN to the token of the next cursor and the keys of the page. -/
theorem array_replies_decode (storage : StorageEngine hash) :
    (∀ (clock : Nat → Int) (cmd : ParsedCommand), cmd.args ≠ [] →
      decodeReply (handleMget clock cmd storage) = some (.array
        (cmd.args.zipIdx.map fun k => optionalValue (storage.get (clock k.2) k.1)))) ∧
    (∀ (cmd : ParsedCommand) (token : Bytes) (options : List Bytes) (cursor : ScanCursor)
        (count : Nat) (pattern : Bytes),
      cmd.args = token :: options → decodeScanCursor token = .ok cursor →
      scanOptions options 10 (bytes "*") = .ok (count,pattern) →
      ∃ reply, handleScan cmd storage = .ok reply ∧
        decodeReply reply = some (.array
          [.bulk (scanToken (KeyScanner.scan storage.table cursor count pattern)),
            .array ((KeyScanner.scan storage.table cursor count pattern).keys.map .bulk)])) := by
  constructor
  · intro clock cmd hargs
    exact decodeReply_handleMget clock hargs storage
  · intro cmd token options cursor count pattern hargs hcursor hoptions
    refine ⟨scanResponse (scanToken (KeyScanner.scan storage.table cursor count pattern))
      (KeyScanner.scan storage.table cursor count pattern).keys,?_,decodeReply_scanResponse _ _⟩
    simp only [handleScan,hargs,hcursor,hoptions]
    rfl

end

end VoltDBX
