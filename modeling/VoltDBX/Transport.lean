import VoltDBX.Session

/-!
Lines and replies on the socket of net/client_session.cpp: clients that end their lines with
`\n` beside clients that end them with `\r\n`, and replies beside a socket that takes only a
beginning of them.
-/

set_option autoImplicit false

namespace VoltDBX
open TextLines

theorem chomp_of_notMem {l : Bytes} (h : cr ∉ l) : chomp l = l := by
  unfold chomp
  rw [if_neg]
  intro hlast
  exact h (List.mem_of_getLast? hlast)

theorem chomp_cr (l : Bytes) : chomp (l ++ [cr]) = l := by
  simp [chomp]

namespace ClientSession

def readLines : Nat → ClientSession → List (Bytes × Bool)
  | 0, _ => []
  | n+1, s => (s.readLine.1,s.readLine.2.alive) :: readLines n s.readLine.2

def receiving (stream : Bytes) : ClientSession := ⟨stream.map .byte,[],true,[]⟩

/-- The same for the bytes in front of each newline: a line that is too long closes the session,
and so does the end of the stream. -/
def readings : Nat → List Bytes → List (Bytes × Bool)
  | 0, _ => []
  | n+1, [] => ([],false) :: List.replicate n ([],false)
  | n+1, l :: ls =>
    if l.length ≤ 65536 then (chomp l,true) :: readings n ls
    else (l.take 65537,false) :: List.replicate n ([],false)

theorem readings_short {l : Bytes} (h : l.length ≤ 65536) (n : Nat) (ls : List Bytes) :
    readings (n+1) (l :: ls) = (chomp l,true) :: readings n ls := if_pos h

theorem readings_long {l : Bytes} (h : ¬ l.length ≤ 65536) (n : Nat) (ls : List Bytes) :
    readings (n+1) (l :: ls) = (l.take 65537,false) :: List.replicate n ([],false) := if_neg h

theorem readLines_closed {s : ClientSession} (h : s.alive = false) (n : Nat) :
    readLines n s = List.replicate n ([],false) := by
  induction n with
  | zero => rfl
  | succ n ih =>
    have hread : s.readLine = ([],s) := by simp [readLine,h]
    rw [readLines,hread,ih,h]
    rfl

theorem readLoop_line {l : Bytes} (hl : lf ∉ l) (rest : List Arrival) {buffer : Bytes}
    (hlen : (buffer ++ l).length ≤ 65536) :
    readLoop (l.map .byte ++ .byte lf :: rest) buffer = (chomp (buffer ++ l),rest,true) := by
  induction l generalizing buffer with
  | nil => simp [readLoop]
  | cons c l ih =>
    obtain ⟨hc,hl⟩ := List.ne_and_not_mem_of_not_mem_cons hl
    have hshort : ¬ 65536 < (buffer ++ [c]).length := by
      simp only [List.length_append,List.length_cons,List.length_nil] at hlen ⊢
      omega
    rw [List.map_cons,List.cons_append,readLoop,if_neg hc.symm,if_neg hshort,
      ih hl (by simpa using hlen),List.append_assoc,List.singleton_append]

theorem readLoop_long {l : Bytes} (hl : lf ∉ l) (rest : List Arrival) {buffer : Bytes}
    (hbuffer : buffer.length ≤ 65536) (hlen : 65536 < (buffer ++ l).length) :
    ∃ left, readLoop (l.map .byte ++ rest) buffer = ((buffer ++ l).take 65537,left,false) := by
  induction l generalizing buffer with
  | nil =>
    rw [List.append_nil] at hlen
    omega
  | cons c l ih =>
    obtain ⟨hc,hl⟩ := List.ne_and_not_mem_of_not_mem_cons hl
    rw [List.map_cons,List.cons_append,readLoop,if_neg hc.symm]
    have hjoin : buffer ++ c :: l = (buffer ++ [c]) ++ l := by simp
    by_cases hlong : 65536 < (buffer ++ [c]).length
    · have hfull : (buffer ++ [c]).length = 65537 := by
        simp only [List.length_append,List.length_cons,List.length_nil] at hlong ⊢
        omega
      rw [if_pos hlong,hjoin,← hfull,List.take_left]
      exact ⟨_,rfl⟩
    · rw [if_neg hlong,hjoin]
      rw [hjoin] at hlen
      exact ih hl (by omega) hlen

/-- The calls see a stream through the bytes in front of its newlines only. -/
theorem readLines_unlines {bodies : List Bytes} (h : ∀ b ∈ bodies, lf ∉ b) (n : Nat) :
    readLines n (receiving (unlines lf bodies)) = readings n bodies := by
  induction n generalizing bodies with
  | zero => rfl
  | succ n ih =>
    cases bodies with
    | nil =>
      have hclosed := @readLines_closed ⟨[],[],false,[]⟩ rfl n
      rw [readings,← hclosed]
      rfl
    | cons b bodies =>
      have hb : lf ∉ b := h b (by simp)
      have hstream : (unlines lf (b :: bodies)).map Arrival.byte =
          b.map .byte ++ .byte lf :: (unlines lf bodies).map .byte := by
        simp [unlines]
      rw [readLines]
      by_cases hlen : b.length ≤ 65536
      · have hread : (receiving (unlines lf (b :: bodies))).readLine =
            (chomp b,receiving (unlines lf bodies)) := by
          simp only [readLine,receiving,hstream,if_true,
            @readLoop_line b hb ((unlines lf bodies).map .byte) [] (by simpa using hlen)]
          rfl
        rw [hread,readings_short hlen,ih fun c hc => h c (by simp [hc])]
        rfl
      · obtain ⟨left,hloop⟩ := @readLoop_long b hb (.byte lf :: (unlines lf bodies).map .byte) []
          (by simp) (by simpa using hlen)
        have hread : (receiving (unlines lf (b :: bodies))).readLine =
            (b.take 65537,⟨left,[],false,[]⟩) := by
          simp only [readLine,receiving,hstream,if_true,hloop]
          rfl
        rw [hread,readings_long hlen,readLines_closed rfl]

def NoneAtLimit (lines : List Bytes) : Prop :=
  ∀ l ∈ lines.find? (fun l => decide (65536 ≤ l.length)), l.length ≠ 65536

theorem readings_agree_iff {lines : List Bytes} (h : ∀ l ∈ lines, cr ∉ l) :
    (∀ n, readings n lines = readings n (lines.map (· ++ [cr]))) ↔ NoneAtLimit lines := by
  induction lines with
  | nil => simp [NoneAtLimit]
  | cons l ls ih =>
    have hplain : chomp l = l := chomp_of_notMem (h l (by simp))
    have hcr : (l ++ [cr]).length = l.length+1 := by simp
    rcases Nat.lt_trichotomy l.length 65536 with hlt | heq | hgt
    · -- both read the line and go on
      have hrest : NoneAtLimit (l :: ls) ↔ NoneAtLimit ls := by
        have hnot : ¬ 65536 ≤ l.length := by omega
        simp [NoneAtLimit,hnot]
      have hfirst : l.length ≤ 65536 := by omega
      have hsecond : (l ++ [cr]).length ≤ 65536 := by omega
      rw [hrest,← ih fun k hk => h k (by simp [hk])]
      constructor
      · intro hall n
        have hnext := hall (n+1)
        rw [List.map_cons,readings_short hfirst,readings_short hsecond] at hnext
        exact (List.cons.inj hnext).2
      · intro hall n
        cases n with
        | zero => rfl
        | succ n =>
          rw [List.map_cons,readings_short hfirst,readings_short hsecond,hall n,hplain,chomp_cr]
    · -- the line just fits, its carriage return does not
      have hnone : ¬ NoneAtLimit (l :: ls) := by
        simp [NoneAtLimit,heq]
      have hfirst : l.length ≤ 65536 := by omega
      have hsecond : ¬ (l ++ [cr]).length ≤ 65536 := by omega
      refine iff_of_false ?_ hnone
      intro hall
      have hone := hall 1
      rw [List.map_cons,readings_short hfirst,readings_long hsecond] at hone
      have hend : true = false := congrArg Prod.snd (List.cons.inj hone).1
      cases hend
    · -- both are closed before the line is over
      have hnone : NoneAtLimit (l :: ls) := by
        have hle : 65536 ≤ l.length := by omega
        intro k hk
        simp only [List.find?_cons,hle,decide_true] at hk
        cases hk
        omega
      have hfirst : ¬ l.length ≤ 65536 := by omega
      have hsecond : ¬ (l ++ [cr]).length ≤ 65536 := by omega
      refine iff_of_true ?_ hnone
      intro n
      cases n with
      | zero => rfl
      | succ n =>
        rw [List.map_cons,readings_long hfirst,readings_long hsecond,
          List.take_append_of_le_length (by omega)]

theorem readLines_lf {lines : List Bytes} (h : ∀ l ∈ lines, lf ∉ l) (n : Nat) :
    readLines n (receiving (lines.flatMap (· ++ [lf]))) = readings n lines := by
  have hstream : lines.flatMap (· ++ [lf]) = unlines lf lines := by
    clear h
    induction lines with
    | nil => rfl
    | cons l lines ih => simp [unlines,ih]
  rw [hstream,readLines_unlines h]

theorem readLines_crlf {lines : List Bytes} (h : ∀ l ∈ lines, lf ∉ l) (n : Nat) :
    readLines n (receiving (lines.flatMap (· ++ [cr,lf]))) =
      readings n (lines.map (· ++ [cr])) := by
  have hstream : lines.flatMap (· ++ [cr,lf]) = (lines.map (· ++ [cr])).flatMap (· ++ [lf]) := by
    simp [List.flatMap_map]
  rw [hstream,readLines_lf]
  intro b hb
  obtain ⟨l,hl,rfl⟩ := List.mem_map.mp hb
  have hne : lf ≠ cr := by decide
  simp [h l hl,hne]

/-- Whichever way a client ends its lines, the calls of `read_line` return the same and the
session closes at the same line, just when no line reaches the limit exactly: there the
carriage return is one byte too many. -/
theorem line_ends_agree_iff {lines : List Bytes} (h : ∀ l ∈ lines, cr ∉ l ∧ lf ∉ l) :
    (∀ n, readLines n (receiving (lines.flatMap (· ++ [lf]))) =
      readLines n (receiving (lines.flatMap (· ++ [cr,lf])))) ↔
      ∀ l ∈ lines.find? (fun l => decide (65536 ≤ l.length)), l.length ≠ 65536 := by
  simp only [readLines_lf fun l hl => (h l hl).2,readLines_crlf fun l hl => (h l hl).2]
  exact readings_agree_iff fun l hl => (h l hl).1

theorem line_ends_agree_iff_ping :
    (∀ n, readLines n (receiving ([bytes "PING"].flatMap (· ++ [lf]))) =
      readLines n (receiving ([bytes "PING"].flatMap (· ++ [cr,lf])))) ∧
      ∀ l ∈ [bytes "PING"], cr ∉ l ∧ lf ∉ l := by
  have hlines : ∀ l ∈ [bytes "PING"], cr ∉ l ∧ lf ∉ l := by
    intro l hl
    rw [List.mem_singleton.mp hl]
    decide
  refine ⟨(line_ends_agree_iff hlines).mpr ?_,hlines⟩
  intro l hl
  have hnone : [bytes "PING"].find? (fun l => decide (65536 ≤ l.length)) = none := by decide
  rw [hnone] at hl
  cases hl

/-- A line of 65536 bytes is read with the one ending and closes the session with the other. -/
theorem limit_counts_carriage_return :
    ¬ ∀ lines : List Bytes, (∀ l ∈ lines, cr ∉ l ∧ lf ∉ l) →
      ∀ n, readLines n (receiving (lines.flatMap (· ++ [lf]))) =
        readLines n (receiving (lines.flatMap (· ++ [cr,lf]))) := by
  intro h
  obtain ⟨line,hlen,hplain⟩ : ∃ line : Bytes, line.length = 65536 ∧ cr ∉ line ∧ lf ∉ line := by
    refine ⟨List.replicate 65536 120,List.length_replicate,?_,?_⟩
    · exact fun hmem => absurd (List.eq_of_mem_replicate hmem) (by decide)
    · exact fun hmem => absurd (List.eq_of_mem_replicate hmem) (by decide)
  have hlines : ∀ l ∈ [line], cr ∉ l ∧ lf ∉ l := by
    intro l hl
    rw [List.mem_singleton.mp hl]
    exact hplain
  have hsame := h [line] hlines
  simp only [readLines_lf fun l hl => (hlines l hl).2,
    readLines_crlf fun l hl => (hlines l hl).2] at hsame
  have hlimit := (readings_agree_iff fun l hl => (hlines l hl).1).mp hsame
  refine hlimit line ?_ hlen
  rw [List.find?_cons,decide_eq_true hlen.ge]
  rfl

def writeLines : List Bytes → ClientSession → List Bool × ClientSession
  | [], s => ([],s)
  | reply :: replies, s =>
    ((s.writeLine reply).2 :: (writeLines replies (s.writeLine reply).1).1,
      (writeLines replies (s.writeLine reply).1).2)

def acknowledged (replies : List Bytes) (s : ClientSession) : Bytes :=
  (replies.zip (writeLines replies s).1).flatMap fun p => if p.2 then payload p.1 else []

/-- What was sent are the whole payloads of the calls that returned true, and at most a
beginning of one more, whose call returned false and left the session closed. -/
def WrittenWhole (replies : List Bytes) (s : ClientSession) : Prop :=
  ∃ tail, (writeLines replies s).2.sent = s.sent ++ acknowledged replies s ++ tail ∧
    (tail = [] ∨ ∃ begun reply rest, replies = begun ++ reply :: rest ∧
      tail <+: payload reply ∧
      ((writeLines begun s).2.writeLine reply).2 = false ∧
      ((writeLines begun s).2.writeLine reply).1.alive = false)

/-- Up to the first write that fails, each one takes its whole buffer. -/
def TakenWhole : List Bytes → List (Option Nat) → Prop
  | reply :: replies, some n :: outcomes =>
    (payload reply).length ≤ n ∧ TakenWhole replies outcomes
  | _, _ => True

theorem writeLines_closed {s : ClientSession} (h : s.alive = false) (replies : List Bytes) :
    (writeLines replies s).2 = s ∧ acknowledged replies s = [] := by
  have hwrite : ∀ reply, s.writeLine reply = (s,false) := fun reply => by simp [writeLine,h]
  induction replies with
  | nil => exact ⟨rfl,rfl⟩
  | cons reply replies ih =>
    have hnext : writeLines (reply :: replies) s =
        (false :: (writeLines replies s).1,(writeLines replies s).2) := by
      rw [writeLines,hwrite]
    refine ⟨by rw [hnext]; exact ih.1,?_⟩
    rw [acknowledged,hnext]
    simpa [acknowledged] using ih.2

theorem writeLines_cons {reply : Bytes} {s t : ClientSession} {ok : Bool}
    (h : s.writeLine reply = (t,ok)) (replies : List Bytes) :
    (writeLines (reply :: replies) s).2 = (writeLines replies t).2 ∧
      acknowledged (reply :: replies) s =
        (if ok then payload reply else []) ++ acknowledged replies t := by
  have hnext : writeLines (reply :: replies) s =
      (ok :: (writeLines replies t).1,(writeLines replies t).2) := by
    rw [writeLines,h]
  refine ⟨by rw [hnext],?_⟩
  rw [acknowledged,hnext]
  simp [acknowledged]

theorem sent_cases (replies : List Bytes) (s : ClientSession) :
    ∃ out, (writeLines replies s).2.sent = s.sent ++ out ∧
      ((s.alive = true → TakenWhole replies s.outcomes) ∧ out = acknowledged replies s ∨
        ¬ (s.alive = true → TakenWhole replies s.outcomes) ∧
          out.length < (acknowledged replies s).length) := by
  induction replies generalizing s with
  | nil => exact ⟨[],by simp [writeLines],Or.inl ⟨fun _ => trivial,rfl⟩⟩
  | cons reply replies ih =>
    by_cases halive : s.alive = true
    · obtain ⟨incoming,outcomes,alive,sent⟩ := s
      dsimp only at halive
      subst halive
      simp only [forall_true_left]
      rcases outcomes with _ | ⟨_ | n,rest⟩
      · -- the whole buffer is taken
        obtain ⟨hstate,hack⟩ := @writeLines_cons reply ⟨incoming,[],true,sent⟩ _ _ rfl replies
        have hwhole : TakenWhole replies [] := by cases replies <;> trivial
        obtain ⟨out,hout,⟨-,rfl⟩ | ⟨hnot,-⟩⟩ := ih ⟨incoming,[],true,sent ++ payload reply⟩
        · refine ⟨payload reply ++ acknowledged replies _,?_,Or.inl ⟨trivial,by rw [hack]; rfl⟩⟩
          rw [hstate,hout,List.append_assoc]
        · exact absurd (fun _ => hwhole) hnot
      · -- the write fails, and nothing is sent from then on
        obtain ⟨hstate,hack⟩ :=
          @writeLines_cons reply ⟨incoming,none :: rest,true,sent⟩ _ _ rfl replies
        obtain ⟨hclosed,hnone⟩ := @writeLines_closed ⟨incoming,rest,false,sent⟩ rfl replies
        refine ⟨[],by rw [hstate,hclosed,List.append_nil],Or.inl ⟨trivial,?_⟩⟩
        rw [hack,hnone]
        rfl
      · obtain ⟨hstate,hack⟩ :=
          @writeLines_cons reply ⟨incoming,some n :: rest,true,sent⟩ _ _ rfl replies
        have hlen : (acknowledged (reply :: replies) ⟨incoming,some n :: rest,true,sent⟩).length =
            (payload reply).length+(acknowledged replies
              ⟨incoming,rest,true,sent ++ (payload reply).take n⟩).length := by
          rw [hack,List.length_append]
          rfl
        obtain ⟨out,hout,hcases⟩ := ih ⟨incoming,rest,true,sent ++ (payload reply).take n⟩
        simp only [forall_true_left] at hcases
        refine ⟨(payload reply).take n ++ out,by rw [hstate,hout,List.append_assoc],?_⟩
        rw [hlen,List.length_append,List.length_take]
        by_cases hfull : (payload reply).length ≤ n
        · rcases hcases with ⟨hrest,rfl⟩ | ⟨hrest,hless⟩
          · refine Or.inl ⟨⟨hfull,hrest⟩,?_⟩
            rw [hack,List.take_of_length_le hfull]
            rfl
          · exact Or.inr ⟨fun h => hrest h.2,by omega⟩
        · refine Or.inr ⟨fun h => hfull h.1,?_⟩
          rcases hcases with ⟨-,rfl⟩ | ⟨-,hless⟩
          · omega
          · omega
    · have hdead : s.alive = false := by simpa using halive
      obtain ⟨hstate,hnone⟩ := writeLines_closed hdead (reply :: replies)
      exact ⟨[],by rw [hstate,List.append_nil],Or.inl ⟨fun h => absurd h halive,hnone.symm⟩⟩

/-- Replies go out whole, up to one at which the session closes, just when each write before
the first that fails takes its whole buffer. -/
theorem replies_written_whole_iff (replies : List Bytes) (s : ClientSession) :
    WrittenWhole replies s ↔ (s.alive = true → TakenWhole replies s.outcomes) := by
  obtain ⟨out,hout,⟨hwhole,hack⟩ | ⟨hshort,hless⟩⟩ := sent_cases replies s
  · refine iff_of_true ⟨[],?_,Or.inl rfl⟩ hwhole
    rw [hout,hack,List.append_nil]
  · refine iff_of_false ?_ hshort
    rintro ⟨tail,hsent,-⟩
    rw [hout,List.append_assoc,List.append_cancel_left_eq] at hsent
    rw [hsent,List.length_append] at hless
    omega

/-- Of the four bytes `+OK\n` one is taken, the call returns true, and the next reply follows. -/
theorem short_write_goes_on :
    ¬ ∀ (replies : List Bytes) (s : ClientSession), WrittenWhole replies s := by
  intro h
  obtain ⟨tail,hsent,-⟩ := h [bytes "+OK",bytes "+PONG"] ⟨[],[some 1],true,[]⟩
  have hack : acknowledged [bytes "+OK",bytes "+PONG"] ⟨[],[some 1],true,[]⟩ =
      bytes "+OK\n+PONG\n" := by decide
  have hout : (writeLines [bytes "+OK",bytes "+PONG"] ⟨[],[some 1],true,[]⟩).2.sent =
      bytes "++PONG\n" := by decide
  rw [hack,hout] at hsent
  have hlen := congrArg List.length hsent
  rw [List.length_append,List.length_append] at hlen
  have hshort : (bytes "++PONG\n").length = 7 := by decide
  have hlong : (bytes "+OK\n+PONG\n").length = 10 := by decide
  omega

end ClientSession
end VoltDBX
