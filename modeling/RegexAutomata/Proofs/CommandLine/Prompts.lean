import RegexAutomata.CommandLine.Commands

/-! Values typed at a prompt instead of given as arguments. A line is read back as the value that was
typed on it, whatever bytes come behind the line. So a conversion that asks does the same as one that
has its arguments, but for the banner and the prompts that it prints. -/
namespace RegexAutomata.CommandLine

inductive LineEnd where
  | lf | crlf
deriving DecidableEq

def LineEnd.chars : LineEnd → List Char
  | .lf => ['\n']
  | .crlf => ['\r', '\n']

/-- A value that fits on one line and that no line end can run into. -/
structure Typable (t : List Char) : Prop where
  lineFeed_notMem : '\n' ∉ t
  getLast?_ne : t.getLast? ≠ some '\r'

instance (t : List Char) : Decidable (Typable t) :=
  decidable_of_iff ('\n' ∉ t ∧ t.getLast? ≠ some '\r') ⟨fun h => ⟨h.1, h.2⟩, fun h => ⟨h.1, h.2⟩⟩

def bytes (t : List Char) : List UInt8 := t.flatMap String.utf8EncodeChar

def LineEnd.line (e : LineEnd) (t : List Char) : List UInt8 := bytes (t ++ e.chars)

section line
variable {t : List Char} {c : Char}

/-- Only the line feed itself is encoded with its byte. -/
theorem lineFeed_notMem_utf8EncodeChar (h : c ≠ '\n') : lineFeed ∉ String.utf8EncodeChar c := by
  have hc : c.val.toNat ≠ 10 := fun he => h (Char.ext (UInt32.toNat_inj.1 he))
  have hbyte {n : Nat} (hn : n % 256 ≠ 10) : lineFeed ≠ UInt8.ofNat n := fun he =>
    hn (UInt8.toNat_inj.2 he).symm
  -- the cases are the lengths from one byte to four
  fun_cases String.utf8EncodeChar
  all_goals simp only [List.mem_cons, List.not_mem_nil, or_false, not_or]
  · apply hbyte
    omega
  · constructor <;> apply hbyte <;> omega
  · refine ⟨?_, ?_, ?_⟩ <;> apply hbyte <;> omega
  · refine ⟨?_, ?_, ?_, ?_⟩ <;> apply hbyte <;> omega

theorem lineFeed_notMem_bytes (h : '\n' ∉ t) : lineFeed ∉ bytes t := by
  intro hmem
  obtain ⟨c, hc, hbyte⟩ := List.mem_flatMap.1 hmem
  exact lineFeed_notMem_utf8EncodeChar (fun he => h (he ▸ hc)) hbyte

/-- A line has one line feed, and it is its last byte. -/
theorem exists_line_eq (h : '\n' ∉ t) (e : LineEnd) :
    ∃ front, lineFeed ∉ front ∧ e.line t = front ++ [lineFeed] := by
  cases e with
  | lf => exact ⟨bytes t, lineFeed_notMem_bytes h, List.flatMap_append⟩
  | crlf =>
    have hfront : '\n' ∉ t ++ ['\r'] := by simpa using h
    refine ⟨bytes (t ++ ['\r']), lineFeed_notMem_bytes hfront, ?_⟩
    rw [LineEnd.line, show LineEnd.crlf.chars = ['\r'] ++ ['\n'] from rfl, ← List.append_assoc]
    exact List.flatMap_append

theorem afterLine_line (h : '\n' ∉ t) (e : LineEnd) (rest : List UInt8) :
    afterLine (e.line t ++ rest) = rest := by
  obtain ⟨front, hfront, hline⟩ := exists_line_eq h e
  have hpass : ∀ b ∈ front, (b != lineFeed) = true := by
    intro b hb
    apply bne_iff_ne.2
    rintro rfl
    exact hfront hb
  rw [hline, afterLine, List.append_assoc, List.dropWhile_append_of_pos hpass]
  rfl

theorem firstLine_line (h : '\n' ∉ t) (e : LineEnd) (rest : List UInt8) :
    firstLine (e.line t ++ rest) = e.line t := by
  have hsplit := firstLine_append_afterLine (e.line t ++ rest)
  rw [afterLine_line h] at hsplit
  exact List.append_cancel_right hsplit

theorem trimLineEnd_append (h : Typable t) (e : LineEnd) : trimLineEnd (t ++ e.chars) = t := by
  have hend : ∀ c ∈ e.chars.reverse, isLineEnd c = true := by
    cases e <;> simp [LineEnd.chars, isLineEnd]
  have hstop : t.reverse.dropWhile isLineEnd = t.reverse := by
    have hlast := h.getLast?_ne
    rw [← List.head?_reverse] at hlast
    cases hrev : t.reverse with
    | nil => rfl
    | cons c u =>
      have hmem : c ∈ t := List.mem_reverse.1 (hrev ▸ List.mem_cons_self)
      have hcr : c ≠ '\r' := by simpa [hrev] using hlast
      have hlf : c ≠ '\n' := fun he => h.lineFeed_notMem (he ▸ hmem)
      simp [isLineEnd, hcr, hlf]
  rw [trimLineEnd, List.reverse_append, List.dropWhile_append_of_pos hend, hstop,
    List.reverse_reverse]

/-- What was typed is what is read. -/
theorem lineText?_line (h : Typable t) (e : LineEnd) : lineText? (e.line t) = some t := by
  have hbytes : ByteArray.mk (e.line t).toArray = (t ++ e.chars).utf8Encode := by
    apply ByteArray.ext
    exact List.data_toByteArray.symm
  rw [lineText?, hbytes, List.utf8Decode?_utf8Encode, Option.map_some, trimLineEnd_append h]

end line

inductive Channel where
  | argument
  | typed (e : LineEnd)
deriving DecidableEq

namespace Channel

def given : Channel → List Char → Option (List Char)
  | .argument, t => some t
  | .typed _, _ => none

def input : Channel → List Char → List UInt8
  | .argument, _ => []
  | .typed e, t => e.line t

def asks : Channel → Bool
  | .argument => false
  | .typed _ => true

def prompt (c : Channel) (text : String) : String := if c.asks then text else ""

theorem isNone_given (c : Channel) (t : List Char) : (c.given t).isNone = c.asks := by
  cases c <;> rfl

end Channel

section dialogue
variable {t : List Char} {d : Dialogue}

def Transcript.after (r : Transcript) (text : String) : Transcript :=
  { r with output := text ++ r.output }

theorem Transcript.after_empty (r : Transcript) : r.after "" = r := by
  rw [after, String.empty_append]

theorem Transcript.after_after (r : Transcript) (s t : String) :
    (r.after s).after t = r.after (t ++ s) := by
  simp only [after, String.append_assoc]

inductive Dialogue.Silent : Dialogue → Prop
  | finish (exitCode : Nat) : Silent (.finish exitCode)
  | print {d : Dialogue} (text : String) : Silent d → Silent (.print text d)
  | report {d : Dialogue} (text : String) : Silent d → Silent (.report text d)

/-- Input that is not asked for has no influence. -/
theorem Dialogue.Silent.transcript_eq (h : d.Silent) (input input' : List UInt8) :
    d.transcript input = d.transcript input' := by
  induction h with
  | finish exitCode => rfl
  | print text _ ih => simp only [transcript, ih]
  | report text _ ih => simp only [transcript, ih]

theorem silent_fail (message : String) : (fail message).Silent := .report _ (.finish 1)

theorem silent_reportEvents (h : d.Silent) (verbose : Bool) (log : List Log.Event) :
    (reportEvents verbose log d).Silent := by
  cases verbose with
  | false => exact h
  | true =>
    simp only [reportEvents, if_true]
    induction log.filter fun e => e.level == .debug with
    | nil => exact h
    | cons e events ih => exact .report _ ih

/-- A conversion does not ask any more once it has its values. -/
theorem silent_convertIn (verbose showNfa asGraph : Bool) (s : Session) (t : List Char) :
    (convertIn verbose showNfa asGraph s t).Silent := by
  apply silent_reportEvents
  cases (s.convert t).result with
  | ok c => exact .print _ (.finish 0)
  | error e => exact silent_fail _

/-- A value that is typed has the same effect as one that is given, after the prompt. -/
theorem transcript_askUnless (h : Typable t) (text : String) (c : Channel)
    (next : List Char → Dialogue) (rest : List UInt8) :
    (askUnless text (c.given t) next).transcript (c.input t ++ rest) =
      ((next t).transcript rest).after (c.prompt text) := by
  cases c with
  | argument => exact (Transcript.after_empty _).symm
  | typed e =>
    simp only [Channel.given, Channel.input, Channel.prompt, Channel.asks, askUnless,
      Dialogue.transcript, firstLine_line h.lineFeed_notMem, afterLine_line h.lineFeed_notMem,
      lineText?_line h]
    rfl

/-- The bytes of the second line count, and its prompt is printed, only over a declared alphabet. -/
theorem transcript_inSession (h : Typable t) (declaration : List Char) (c : Channel)
    (next : Session → List Char → Dialogue) (rest : List UInt8) :
    (inSession declaration fun s => askUnless expressionPrompt (c.given t) (next s)).transcript
        ((if (Session.ofText declaration).isOk then c.input t else []) ++ rest) =
      ((inSession declaration fun s => next s t).transcript rest).after
        (if (Session.ofText declaration).isOk then c.prompt expressionPrompt else "") := by
  cases hs : Session.ofText declaration with
  | error e => simp [inSession, hs, Except.isOk, Except.toBool, fail, Dialogue.transcript,
      Transcript.after_empty]
  | ok s => simp [inSession, hs, Except.isOk, Except.toBool, transcript_askUnless h]

end dialogue

variable {a e : List Char} {p q : Channel}

/-- The alphabet comes by the channel `p` and the expression by `q`. A conversion that asks for one of
them or both prints the banner and its prompts first, and then does all that it does with arguments.
The expression is asked for only over an alphabet, and bytes that are not asked for have no
influence. -/
theorem transcript_convert (verbose showNfa asGraph : Bool) (ha : Typable a) (he : Typable e)
    (hasks : p.asks = true ∨ q.asks = true) (rest input : List UInt8) :
    (Invocation.mk verbose (.convert (p.given a) (q.given e) showNfa asGraph)).dialogue.transcript
        (p.input a ++ ((if (Session.ofText a).isOk then q.input e else []) ++ rest)) =
      ((Invocation.mk verbose (.convert (some a) (some e) showNfa asGraph)).dialogue.transcript
        input).after (banner ++ (p.prompt alphabetPrompt ++
          if (Session.ofText a).isOk then q.prompt expressionPrompt else "")) := by
  have hbanner : ((p.given a).isNone || (q.given e).isNone) = true := by
    simpa only [Channel.isNone_given, Bool.or_eq_true] using hasks
  let answered := inSession a fun s => convertIn verbose showNfa asGraph s e
  have hsilent : answered.Silent := by
    simp only [answered, inSession]
    cases Session.ofText a with
    | ok s => exact silent_convertIn ..
    | error e => exact silent_fail _
  have hinput : answered.transcript rest = answered.transcript input :=
    hsilent.transcript_eq rest input
  have hasked := transcript_askUnless ha alphabetPrompt p
    (fun a => inSession a fun s =>
      askUnless expressionPrompt (q.given e) (convertIn verbose showNfa asGraph s))
    ((if (Session.ofText a).isOk then q.input e else []) ++ rest)
  rw [transcript_inSession he, hinput, Transcript.after_after] at hasked
  rw [← Transcript.after_after]
  simp only [Invocation.dialogue, convertDialogue, hbanner, if_true]
  exact congrArg (Transcript.after · banner) hasked

/-- Both values are typed, on lines that end in different ways, and a byte follows that is no text. -/
theorem transcript_convert_typed :
    Typable ['a'] ∧ Typable ['a', '*'] ∧
    (Invocation.mk false (.convert none none true false)).dialogue.transcript
        (LineEnd.crlf.line ['a'] ++ (LineEnd.lf.line ['a', '*'] ++ [255])) =
      ((Invocation.mk false (.convert (some ['a']) (some ['a', '*']) true false)).dialogue.transcript
        []).after (banner ++ (alphabetPrompt ++ expressionPrompt)) := by
  have ha : Typable ['a'] := by decide
  have he : Typable ['a', '*'] := by decide
  have hok : (Session.ofText ['a']).isOk = true := by decide
  have hrun := transcript_convert (p := .typed .crlf) (q := .typed .lf) false true false ha he
    (.inl rfl) [255] []
  simp only [hok, if_true] at hrun
  exact ⟨ha, he, hrun⟩

end RegexAutomata.CommandLine
