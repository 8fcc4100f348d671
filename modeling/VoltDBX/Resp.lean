import VoltDBX.Decimal

/-!
The frames of RESP: values, their text, and a reader that takes values off the
front of a stream. A line end is CRLF or a bare LF; a bulk string has one behind its
data.
-/

set_option autoImplicit false

namespace Resp

section
variable {α β : Type}

/-- The reader takes `v` off every stream that begins with `text`. -/
def Reads (read : List β → Option (α × List β)) (v : α) (text : List β) : Prop :=
  ∀ rest, read (text ++ rest) = some (v,rest)

def readMany (read : List β → Option (α × List β)) : Nat → List β → Option (List α × List β)
  | 0, text => some ([],text)
  | n+1, text => do
    let (v,rest) ← read text
    let (vs,rest) ← readMany read n rest
    return (v :: vs,rest)

theorem reads_many {read : List β → Option (α × List β)} {text : α → List β} {vs : List α}
    (h : ∀ v ∈ vs, Reads read v (text v)) :
    Reads (readMany read vs.length) vs (vs.flatMap text) := by
  intro rest
  induction vs with
  | nil => rfl
  | cons v vs ih =>
    have hv := h v (by simp) (vs.flatMap text ++ rest)
    have hvs := ih fun w hw => h w (by simp [hw])
    rw [List.flatMap_cons,List.append_assoc,List.length_cons,readMany,hv]
    simp [hvs]

end

inductive Value where
  | simple (line : List UInt8)
  | error (line : List UInt8)
  | integer (v : Int)
  | bulk (data : List UInt8)
  | null
  | array (items : List Value)

abbrev crlf : List UInt8 := [13,10]

mutual

/-- The text of a value with the given end. The lines inside it end in CRLF, and an
array ends with its last item. -/
def Value.text : Value → List UInt8 → List UInt8
  | .simple line, e => 43 :: (line ++ e)
  | .error line, e => 45 :: (line ++ e)
  | .integer v, e => 58 :: (Decimal.printInt v ++ e)
  | .bulk data, e => 36 :: (Decimal.print data.length ++ crlf ++ (data ++ e))
  | .null, e => 36 :: ([45,49] ++ e)
  | .array items, _ => 42 :: (Decimal.print items.length ++ crlf ++ Value.texts items)

def Value.texts : List Value → List UInt8
  | [] => []
  | v :: vs => v.text crlf ++ Value.texts vs

end

theorem texts_eq_flatMap (vs : List Value) : Value.texts vs = vs.flatMap (fun v => v.text crlf) := by
  induction vs with
  | nil => rfl
  | cons v vs ih => rw [Value.texts,ih,List.flatMap_cons]

def readEnd : List UInt8 → Option (List UInt8)
  | [] => none
  | c :: cs =>
    if c = 10 then some cs
    else if c = 13 ∧ cs.head? = some 10 then some cs.tail
    else none

def readLine : List UInt8 → Option (List UInt8 × List UInt8)
  | [] => none
  | c :: cs =>
    match readEnd (c :: cs) with
    | some rest => some ([],rest)
    | none => do
      let (line,rest) ← readLine cs
      return (c :: line,rest)

def readNat (line : List UInt8) : Option Nat :=
  if line ≠ [] ∧ line.all Decimal.isDigit then some (Decimal.value line) else none

def readInt (line : List UInt8) : Option Int :=
  if line.head? = some 45 then (readNat line.tail).map fun n => -(n : Int)
  else (readNat line).map fun n => (n : Int)

def readBulk (n : Nat) (text : List UInt8) : Option (Value × List UInt8) :=
  if text.length < n then none
  else do
    let rest ← readEnd (text.drop n)
    return (.bulk (text.take n),rest)

/-- One value. Every level of nesting takes a byte, so as much fuel as there are bytes
is enough. -/
def readValue : Nat → List UInt8 → Option (Value × List UInt8)
  | 0, _ => none
  | _+1, [] => none
  | fuel+1, c :: cs => do
    let (line,rest) ← readLine cs
    if c = 43 then return (.simple line,rest)
    else if c = 45 then return (.error line,rest)
    else if c = 58 then return (.integer (← readInt line),rest)
    else if c = 36 then
      if line = [45,49] then return (.null,rest) else readBulk (← readNat line) rest
    else if c = 42 then do
      let (items,rest) ← readMany (readValue fuel) (← readNat line) rest
      return (.array items,rest)
    else none

def readAll : Nat → List UInt8 → Option (List Value)
  | _, [] => some []
  | 0, _ :: _ => none
  | fuel+1, text => do
    let (v,rest) ← readValue (fuel+1) text
    let vs ← readAll fuel rest
    return v :: vs

def decode (text : List UInt8) : Option (List Value) := readAll text.length text

/-- The text is one value, with nothing left over. -/
def Framed (text : List UInt8) : Prop := ∃ v, decode text = some [v]

inductive LineEnd : List UInt8 → Prop where
  | lf : LineEnd [10]
  | crlf : LineEnd crlf

theorem readEnd_append {e : List UInt8} (h : LineEnd e) (rest : List UInt8) :
    readEnd (e ++ rest) = some rest := by
  cases h with
  | lf => rfl
  | crlf => rfl

def OneLine (line : List UInt8) : Prop := ∀ c ∈ line, c ≠ 10 ∧ c ≠ 13

instance (line : List UInt8) : Decidable (OneLine line) :=
  List.decidableBAll (fun c => c ≠ 10 ∧ c ≠ 13) line

theorem readLine_append {line e : List UInt8} (hline : OneLine line) (he : LineEnd e)
    (rest : List UInt8) : readLine (line ++ (e ++ rest)) = some (line,rest) := by
  induction line with
  | nil =>
    cases he with
    | lf => rfl
    | crlf => rfl
  | cons c line ih =>
    obtain ⟨hlf,hcr⟩ := hline c (by simp)
    have hnone : readEnd (c :: (line ++ (e ++ rest))) = none := by simp [readEnd,hlf,hcr]
    rw [List.cons_append,readLine,hnone,ih fun d hd => hline d (by simp [hd])]
    rfl

theorem isDigit_oneLine {c : UInt8} (h : Decimal.isDigit c = true) : c ≠ 10 ∧ c ≠ 13 := by
  constructor
  · intro hc
    subst hc
    exact absurd h (by decide)
  · intro hc
    subst hc
    exact absurd h (by decide)

theorem oneLine_print (n : Nat) : OneLine (Decimal.print n) :=
  fun _ hc => isDigit_oneLine (Decimal.print_isDigit hc)

theorem oneLine_printInt (v : Int) : OneLine (Decimal.printInt v) := by
  cases v with
  | ofNat n => exact oneLine_print n
  | negSucc n =>
    intro c hc
    rcases List.mem_cons.mp hc with rfl | hc
    · decide
    · exact oneLine_print (n+1) c hc

theorem readNat_print (n : Nat) : readNat (Decimal.print n) = some n := by
  have hdigits : (Decimal.print n).all Decimal.isDigit = true :=
    List.all_eq_true.mpr fun c hc => Decimal.print_isDigit hc
  simp only [readNat,Decimal.print_ne_nil n,hdigits,Decimal.value_print,ne_eq,not_false_eq_true,
    and_self,if_true]

theorem print_head_ne (n : Nat) : (Decimal.print n).head? ≠ some 45 := by
  intro h
  have hdigit := Decimal.print_isDigit (List.mem_of_head? h)
  exact absurd hdigit (by decide)

theorem print_ne_null (n : Nat) : Decimal.print n ≠ [45,49] := by
  intro h
  exact print_head_ne n (by rw [h]; rfl)

theorem readInt_printInt (v : Int) : readInt (Decimal.printInt v) = some v := by
  cases v with
  | ofNat n =>
    rw [Decimal.printInt,readInt,if_neg (print_head_ne n),readNat_print]
    rfl
  | negSucc n =>
    rw [Decimal.printInt,readInt,List.head?_cons,if_pos rfl,List.tail_cons,readNat_print]
    rfl

/-- A line without a line end inside, and the same for the items of an array. -/
inductive Clean : Value → Prop where
  | simple {line : List UInt8} : OneLine line → Clean (.simple line)
  | error {line : List UInt8} : OneLine line → Clean (.error line)
  | integer (v : Int) : Clean (.integer v)
  | bulk (data : List UInt8) : Clean (.bulk data)
  | null : Clean .null
  | array {items : List Value} : (∀ v ∈ items, Clean v) → Clean (.array items)

theorem readBulk_append (data : List UInt8) {e : List UInt8} (he : LineEnd e) (rest : List UInt8) :
    readBulk data.length (data ++ (e ++ rest)) = some (.bulk data,rest) := by
  have hlen : ¬ (data ++ (e ++ rest)).length < data.length := by
    rw [List.length_append]
    omega
  rw [readBulk,if_neg hlen,List.drop_left,readEnd_append he,List.take_left]
  rfl

theorem length_text_le {v : Value} {vs : List Value} (h : v ∈ vs) :
    (v.text crlf).length ≤ (Value.texts vs).length := by
  induction vs with
  | nil => simp at h
  | cons w vs ih =>
    rw [Value.texts,List.length_append]
    rcases List.mem_cons.mp h with rfl | h
    · omega
    · have hle := ih h
      omega

theorem last_text {v : Value} (h : Clean v) {e : List UInt8} (he : LineEnd e) :
    (v.text e).getLast? = some 10 := by
  have hend : ∀ {e : List UInt8}, LineEnd e → ∀ front, (front ++ e).getLast? = some 10 := by
    intro e he front
    cases he with
    | lf => simp
    | crlf => simp
  induction h generalizing e with
  | @simple line _ => exact hend he (43 :: line)
  | @error line _ => exact hend he (45 :: line)
  | integer v => exact hend he (58 :: Decimal.printInt v)
  | bulk data =>
    rw [Value.text,← List.append_assoc]
    exact hend he (36 :: (Decimal.print data.length ++ crlf ++ data))
  | null => exact hend he [36,45,49]
  | @array items hitems ih =>
    rw [Value.text,texts_eq_flatMap]
    rcases List.eq_nil_or_concat items with rfl | ⟨front,v,rfl⟩
    · exact hend .crlf (42 :: Decimal.print 0)
    · have hv := ih v (by simp) .crlf
      rw [List.concat_eq_append,List.flatMap_append,List.flatMap_singleton,← List.append_assoc,
        ← List.cons_append,List.getLast?_append,hv]
      rfl

theorem text_ne_nil (v : Value) (e : List UInt8) : v.text e ≠ [] := by
  cases v <;> simp [Value.text]

theorem exists_fuel_succ {v : Value} {e : List UInt8} {fuel : Nat}
    (h : (v.text e).length ≤ fuel) : ∃ n, fuel = n+1 := by
  have hpos := List.length_pos_of_ne_nil (text_ne_nil v e)
  exact ⟨fuel-1,by omega⟩

/-- Enough fuel takes a value off its text, whatever follows. -/
theorem reads_value {v : Value} (h : Clean v) {e : List UInt8} (he : LineEnd e) {fuel : Nat}
    (hfuel : (v.text e).length ≤ fuel) : Reads (readValue fuel) v (v.text e) := by
  induction h generalizing e fuel with
  | simple hline =>
    intro rest
    obtain ⟨fuel,rfl⟩ := exists_fuel_succ hfuel
    rw [Value.text,List.cons_append,List.append_assoc,readValue,readLine_append hline he]
    rfl
  | error hline =>
    intro rest
    obtain ⟨fuel,rfl⟩ := exists_fuel_succ hfuel
    rw [Value.text,List.cons_append,List.append_assoc,readValue,readLine_append hline he]
    rfl
  | integer v =>
    intro rest
    obtain ⟨fuel,rfl⟩ := exists_fuel_succ hfuel
    rw [Value.text,List.cons_append,List.append_assoc,readValue,
      readLine_append (oneLine_printInt v) he]
    simp [readInt_printInt]
  | bulk data =>
    intro rest
    obtain ⟨fuel,rfl⟩ := exists_fuel_succ hfuel
    rw [Value.text,List.cons_append,List.append_assoc,List.append_assoc,List.append_assoc,
      readValue,readLine_append (oneLine_print _) .crlf]
    simp [print_ne_null,readNat_print,readBulk_append data he]
  | null =>
    intro rest
    have hline : OneLine [45,49] := by decide
    obtain ⟨fuel,rfl⟩ := exists_fuel_succ hfuel
    rw [Value.text,List.cons_append,List.append_assoc,readValue,readLine_append hline he]
    rfl
  | @array items hitems ih =>
    intro rest
    obtain ⟨fuel,rfl⟩ := exists_fuel_succ hfuel
    have hmany : readMany (readValue fuel) items.length (Value.texts items ++ rest) =
        some (items,rest) := by
      rw [texts_eq_flatMap]
      refine reads_many (fun v hv => ih v hv .crlf ?_) rest
      have hle := length_text_le hv
      simp only [Value.text,List.length_cons,List.length_append] at hfuel
      omega
    rw [Value.text,List.cons_append,List.append_assoc,List.append_assoc,readValue,
      readLine_append (oneLine_print _) .crlf]
    simp [readNat_print,hmany]

theorem readAll_texts {vs : List Value} (h : ∀ v ∈ vs, Clean v) {e : List UInt8} (he : LineEnd e)
    {fuel : Nat} (hfuel : (vs.flatMap (fun v => v.text e)).length ≤ fuel) :
    readAll fuel (vs.flatMap (fun v => v.text e)) = some vs := by
  induction vs generalizing fuel with
  | nil =>
    cases fuel with
    | zero => rfl
    | succ fuel => rfl
  | cons v vs ih =>
    rw [List.flatMap_cons,List.length_append] at hfuel
    have hpos := List.length_pos_iff.mpr (text_ne_nil v e)
    cases fuel with
    | zero => omega
    | succ fuel =>
      have hv : readValue (fuel+1) (v.text e ++ vs.flatMap (fun v => v.text e)) =
          some (v,vs.flatMap (fun v => v.text e)) :=
        reads_value (h v (by simp)) he (by omega) _
      have hvs := @ih (fun w hw => h w (by simp [hw])) fuel (by omega)
      rw [List.flatMap_cons,readAll,hv]
      · simp [hvs]
      · simp [text_ne_nil]

theorem decode_texts {vs : List Value} (h : ∀ v ∈ vs, Clean v) {e : List UInt8} (he : LineEnd e) :
    decode (vs.flatMap (fun v => v.text e)) = some vs := readAll_texts h he (Nat.le_refl _)

theorem framed_text {v : Value} (h : Clean v) {e : List UInt8} (he : LineEnd e) :
    Framed (v.text e) := by
  have hone := @decode_texts [v] (by simpa using h) e he
  rw [List.flatMap_singleton] at hone
  exact ⟨v,hone⟩

theorem readAll_nil {fuel : Nat} {text : List UInt8} (h : readAll fuel text = some []) :
    text = [] := by
  cases text with
  | nil => rfl
  | cons c cs =>
    cases fuel with
    | zero => cases h
    | succ fuel =>
      rw [readAll] at h
      · simp [Option.bind_eq_some_iff] at h
      · simp

theorem not_framed {text : List UInt8} (hne : text ≠ [])
    (h : ∀ v rest, readValue text.length text = some (v,rest) → rest ≠ []) : ¬ Framed text := by
  intro ⟨v,hv⟩
  cases text with
  | nil => exact hne rfl
  | cons c cs =>
    rw [decode,List.length_cons,readAll] at hv
    · simp only [Option.bind_eq_bind,Option.bind_eq_some_iff] at hv
      obtain ⟨⟨w,rest⟩,hw,vs,hvs,heq⟩ := hv
      simp only [Option.pure_def,Option.some.injEq,List.cons.injEq] at heq
      rw [heq.2] at hvs
      exact h w rest hw (readAll_nil hvs)
    · simp

theorem not_framed_bulk (data : List UInt8) : ¬ Framed ((Value.bulk data).text []) := by
  refine not_framed (text_ne_nil _ _) fun v rest hread => ?_
  have hline := readLine_append (oneLine_print data.length) .crlf data
  rw [Value.text,List.length_cons,List.append_nil,readValue,List.append_assoc,hline] at hread
  simp [print_ne_null,readNat_print,readBulk,readEnd] at hread

theorem not_framed_simple {line more : List UInt8} (hline : OneLine line) (hmore : more ≠ []) :
    ¬ Framed ((Value.simple line).text [10] ++ more) := by
  refine not_framed (by simp [Value.text]) fun v rest hread => ?_
  have hlen : ((Value.simple line).text [10]).length ≤
      ((Value.simple line).text [10] ++ more).length := by simp
  have hreads := reads_value (Clean.simple hline) .lf hlen more
  rw [hreads,Option.some.injEq,Prod.mk.injEq] at hread
  exact hread.2 ▸ hmore

end Resp
