import Wxml.Json.Record
import Wxml.Proofs.Text
import Wxml.Report

/-!
# Failures told to machines

A failure is told to machines in fields with colons between them, and a backslash before each colon
of the last field, which is the message.

* `Report.Failure.ofLine?` takes such a line apart at its first four colons, and
  `Report.ofLine?_machineLine` says that it finds what was told,
* `Conversion.Fault.quoted` are the texts that a fault repeats in its message, and
  `Report.break_mem_messageOf_iff` says that a line break in a message is in one of them.

Nothing is done about line breaks, so that a failure whose message has some is told in several
lines.
-/

namespace Wxml

/-! ### What a message repeats -/

namespace Text

/-- What a literal has is seen from its characters, without decoding it. -/
theorem not_mem_literal {c : Char} {cs : List Char} (h : cs.contains c = false) :
    c ∉ (String.ofList cs).toList := by
  rw [String.toList_ofList]
  simpa using h

theorem mem_iff_false {c : Char} {t : Text} (h : c ∉ t) : c ∈ t ↔ False := iff_false_intro h

end Text

namespace Component.Fault

/-- The texts that a fault repeats. -/
def quoted : Fault → List Text
  | unclosed name _ => [name]
  | duplicate name _ => [name]
  | unterminatedComment _ => []
  | unterminatedValue value => [value.key]

theorem break_mem_message_iff (fault : Fault) :
    '\n' ∈ fault.message ↔ ∃ t ∈ fault.quoted, '\n' ∈ t := by
  cases fault <;> (delta message; simp [quoted])

end Component.Fault

namespace Template.Fault

/-- The texts that a fault repeats. -/
def quoted : Fault → List Text
  | unclosedElement tag _ => [tag]
  | mismatchedClosingTag expected found _ => found :: expected.toList
  | inTag (.unterminated u) => [u.key]
  | inTag (.duplicate key _) => [key]
  | _ => []

theorem break_mem_message_iff (fault : Fault) :
    '\n' ∈ fault.message ↔ ∃ t ∈ fault.quoted, '\n' ∈ t := by
  delta message
  cases fault with
  | mismatchedClosingTag expected found _ => cases expected <;> simp [quoted, or_comm]
  | inTag fault => cases fault <;> simp [quoted]
  | _ =>
    simp (disch := exact Text.not_mem_literal rfl)
      [-String.reduceToList, Text.mem_iff_false, quoted]

end Template.Fault

namespace Rendering

/-- The texts that a reason repeats. -/
def DirectiveReason.quoted : DirectiveReason → List Text
  | alreadySet name => [name]
  | voidElement tag => [tag]
  | _ => []

/-- The texts that a reason repeats. -/
def ExpressionReason.quoted : ExpressionReason → List Text
  | keyForm item => [item]
  | _ => []

namespace Fault

/-- The texts that a fault repeats. -/
def quoted : Fault → List Text
  | tag name _ _ => [name]
  | modifier key dotted _ => [key, dotted]
  | event name _ => [name]
  | directive key reason _ => key :: reason.quoted
  | expression e reason _ => e :: reason.quoted
  | template fault => fault.quoted

theorem break_mem_message_iff (fault : Fault) :
    '\n' ∈ fault.message ↔ ∃ t ∈ fault.quoted, '\n' ∈ t := by
  cases fault with
  | template fault => exact fault.break_mem_message_iff
  | tag name reason _ =>
    delta message TagReason.message
    cases reason <;> simp [quoted]
  | modifier _ _ _ =>
    delta message
    simp [quoted, or_comm]
  | event _ _ =>
    delta message
    simp [quoted]
  | directive key reason _ =>
    delta message DirectiveReason.message
    cases reason <;>
      simp (disch := exact Text.not_mem_literal rfl)
        [-String.reduceToList, Text.mem_iff_false, quoted, DirectiveReason.quoted]
  | expression e reason _ =>
    delta message ExpressionReason.message
    cases reason <;>
      simp (disch := exact Text.not_mem_literal rfl)
        [-String.reduceToList, Text.mem_iff_false, quoted, ExpressionReason.quoted]

end Fault

end Rendering

namespace Conversion.Fault

/-- The texts that a fault repeats. -/
def quoted : Fault → List Text
  | unreadable path cause => [path, cause]
  | component fault => fault.quoted
  | missingTemplate => []
  | templateLanguage lang => [lang]
  | rendering fault _ => fault.quoted

end Conversion.Fault

namespace Report

/-- Only what is repeated can have a line break. -/
theorem break_mem_messageOf_iff (fault : Conversion.Fault) :
    '\n' ∈ messageOf fault ↔ ∃ t ∈ fault.quoted, '\n' ∈ t := by
  cases fault with
  | unreadable path cause =>
    have hmessage : '\n' ∈ (Conversion.Fault.unreadable path cause).message ↔ '\n' ∈ path := by
      delta Conversion.Fault.message
      simp
    have hquoted : (∃ t ∈ (Conversion.Fault.unreadable path cause).quoted, '\n' ∈ t) ↔
        '\n' ∈ path ∨ '\n' ∈ cause := by simp [Conversion.Fault.quoted]
    rw [messageOf, Conversion.Fault.cause?, hquoted]
    simp only
    split
    · simp [hmessage]
    · -- The cause is part of the message, so are its line breaks.
      rename_i hfound
      have hcause : cause <:+: (Conversion.Fault.unreadable path cause).message := by
        have hwhole := Text.breakOn_append cause (Conversion.Fault.unreadable path cause).message
        rcases Text.breakOn_snd_cases cause (Conversion.Fault.unreadable path cause).message with
          hnil | hstarts
        · exact absurd (by rw [hnil]; rfl) hfound
        · exact hstarts.isInfix.trans ⟨_, [], by rw [List.append_nil]; exact hwhole⟩
      rw [hmessage, or_iff_left_of_imp fun hmem => hmessage.1 (hcause.subset hmem)]
  | component fault =>
    have hmessage : '\n' ∈ (Conversion.Fault.component fault).message ↔ '\n' ∈ fault.message := by
      delta Conversion.Fault.message
      simp
    exact hmessage.trans fault.break_mem_message_iff
  | missingTemplate =>
    delta messageOf Conversion.Fault.message
    simp [Conversion.Fault.cause?, Conversion.Fault.quoted]
  | templateLanguage lang =>
    delta messageOf Conversion.Fault.message
    simp [Conversion.Fault.cause?, Conversion.Fault.quoted]
  | rendering fault _ => exact fault.break_mem_message_iff

/-! ### Lines that are taken apart -/

/-- A failure as machines are told of it. -/
structure Failure where
  file : Text
  position : Nat × Nat
  code : Text
  message : Text
  deriving DecidableEq, Repr

/-- A text cut at its first `n` colons. -/
def cutAtColons : (n : Nat) → Text → List Text
  | 0, t => [t]
  | n + 1, t =>
    match t.dropWhile (· != ':') with
    | [] => [t]
    | _ :: rest => t.takeWhile (· != ':') :: cutAtColons n rest

/-- The text without the backslashes that stand before colons, one for each. -/
def unescapeColons : Text → Text
  | [] => []
  | '\\' :: ':' :: t => ':' :: unescapeColons t
  | c :: t => c :: unescapeColons t

/-- The failure that a line tells of. -/
def Failure.ofLine? (line : Text) : Option Failure :=
  match cutAtColons 4 line with
  | [file, row, column, code, message] =>
    some ⟨file, (Json.ofDigits row, Json.ofDigits column), code, unescapeColons message⟩
  | _ => none

theorem cutAtColons_append (n : Nat) {t : Text} (h : ':' ∉ t) (rest : Text) :
    cutAtColons (n + 1) (t ++ ':' :: rest) = t :: cutAtColons n rest := by
  have hplain : ∀ c ∈ t, (c != ':') = true := by
    intro c hc
    rw [bne_iff_ne]
    rintro rfl
    exact h hc
  rw [cutAtColons, List.dropWhile_append_of_pos hplain, List.takeWhile_append_of_pos hplain]
  simp

theorem unescapeColons_cons {c : Char} {t : Text} (h : c = '\\' → t.head? ≠ some ':') :
    unescapeColons (c :: t) = c :: unescapeColons t := by
  rw [unescapeColons]
  rintro t' rfl rfl
  exact h rfl rfl

theorem escapeColons_cons (c : Char) (t : Text) :
    escapeColons (c :: t) = (if c = ':' then ['\\', ':'] else [c]) ++ escapeColons t :=
  List.flatMap_cons ..

theorem head?_escapeColons (t : Text) : (escapeColons t).head? ≠ some ':' := by
  cases t with
  | nil => simp [escapeColons]
  | cons c t =>
    rw [escapeColons_cons]
    split <;> simp [*]

/-- Each colon has a backslash of its own, whatever stands before it. -/
theorem unescapeColons_escapeColons (t : Text) : unescapeColons (escapeColons t) = t := by
  induction t with
  | nil => rfl
  | cons c t ih =>
    rw [escapeColons_cons]
    split
    · rename_i hc
      rw [hc]
      exact congrArg (':' :: ·) ih
    · rw [List.singleton_append, unescapeColons_cons fun _ => head?_escapeColons t, ih]

theorem count_escapeColons (t : Text) : (escapeColons t).count '\n' = t.count '\n' := by
  induction t with
  | nil => rfl
  | cons c t ih =>
    rw [escapeColons_cons, List.count_append, ih]
    split
    · rename_i hc
      rw [hc, List.count_cons_of_ne (by decide)]
      simp
    · rw [← List.count_append]
      rfl

theorem ofDigits_digits (n : Nat) : Json.ofDigits (Json.digits n) = n := by
  have hstep : (fun (n : Nat) (c : Char) => n * 10 + (c.toNat - '0'.toNat)) =
      fun n c => 10 * n + (c.toNat - '0'.toNat) := by
    funext n c
    rw [Nat.mul_comm]
  rw [Json.ofDigits, hstep]
  exact Nat.ofDigitChars_toDigits (by decide) (by decide)

theorem not_mem_digits {c : Char} (h : c.isDigit = false) (n : Nat) : c ∉ Json.digits n := by
  intro hc
  have hdigit := Nat.isDigit_of_mem_toDigits (by decide) (by decide) hc
  rw [h] at hdigit
  cases hdigit

/-- A line for machines tells what it was written for. -/
theorem ofLine?_machineLine {file : Path} (hfile : ':' ∉ file.text) (position : Nat × Nat)
    {code : Text} (hcode : ':' ∉ code) (message : Text) :
    Failure.ofLine? (machineLine file position code message) =
      some ⟨file.text, position, code, message⟩ := by
  have hdigits (n : Nat) : ':' ∉ Json.digits n := not_mem_digits (by decide) n
  have hline : machineLine file position code message = file.text ++ ':' ::
      (Json.digits position.1 ++ ':' :: (Json.digits position.2 ++ ':' ::
        (code ++ ':' :: escapeColons message))) := by
    simp [machineLine]
  have hcut : cutAtColons 4 (machineLine file position code message) =
      [file.text, Json.digits position.1, Json.digits position.2, code, escapeColons message] := by
    rw [hline, cutAtColons_append 3 hfile, cutAtColons_append 2 (hdigits _),
      cutAtColons_append 1 (hdigits _), cutAtColons_append 0 hcode, cutAtColons]
  rw [Failure.ofLine?, hcut]
  simp only [ofDigits_digits, unescapeColons_escapeColons]

theorem count_machineLine (file : Path) (position : Nat × Nat) (code message : Text) :
    (machineLine file position code message).count '\n' =
      file.text.count '\n' + code.count '\n' + message.count '\n' := by
  have hdigits (n : Nat) : (Json.digits n).count '\n' = 0 :=
    List.count_eq_zero.2 (not_mem_digits (by decide) n)
  have hcolon : (":" : Text).count '\n' = 0 := by decide
  simp only [machineLine, List.count_append, hdigits, hcolon, count_escapeColons]
  omega

/-! ### All failures -/

/-- What a message puts on the output stream. -/
def Message.output : Message → Text
  | .out line => line ++ "\n"
  | .err _ => []
  | .diagnostic _ => []

theorem not_mem_code (fault : Conversion.Fault) : ':' ∉ fault.code ∧ '\n' ∉ fault.code := by
  delta Conversion.Fault.code Rendering.Fault.code
  cases fault with
  | rendering fault _ => cases fault <;> simp
  | _ => simp

/-- What machines are told of a failure can be taken apart again.  It is one line exactly if no text
that the message repeats has a line break. -/
theorem failure_of_machine {style : Style} (hformat : style.format = .machine) {file : Path}
    (hcolon : ':' ∉ file.text) (hbreak : '\n' ∉ file.text) (fault : Conversion.Fault)
    (source : Option Text) :
    ∃ line : Text, (failure style file fault source).flatMap Message.output = line ++ ['\n'] ∧
      Failure.ofLine? line =
        some ⟨file.text, (position? fault source).getD (0, 0), fault.code, messageOf fault⟩ ∧
      line.count '\n' = (messageOf fault).count '\n' ∧
      ('\n' ∉ line ↔ ∀ t ∈ fault.quoted, '\n' ∉ t) := by
  obtain ⟨hcode, hcodeBreak⟩ := not_mem_code fault
  have hcount := count_machineLine file ((position? fault source).getD (0, 0)) fault.code
    (messageOf fault)
  rw [List.count_eq_zero.2 hbreak, List.count_eq_zero.2 hcodeBreak, Nat.zero_add]
    at hcount
  refine ⟨_, ?_, ofLine?_machineLine hcolon _ hcode _, hcount, ?_⟩
  · rw [failure, hformat]
    exact List.append_nil _
  · rw [← List.count_eq_zero, hcount, List.count_eq_zero, break_mem_messageOf_iff]
    simp only [not_exists, not_and]

/-- A filter after a colon, in the second line of a template. -/
def filterFault : Conversion.Fault := .rendering (.expression "a\\:b | c" .filter ⟨4, 16⟩) 10

def filterFile : Path := ⟨"./a.vue"⟩

def filterSource : Text := "<template>\n<p>\x7b\x7ba\\:b | c\x7d\x7d</p></template>"

theorem failure_of_machine_sample :
    Conversion.ofSource ⟨true, .default⟩ filterSource = .error filterFault ∧
      ':' ∉ filterFile.text ∧ '\n' ∉ filterFile.text ∧
      ∃ line : Text,
        (failure ⟨.machine, true⟩ filterFile filterFault (some filterSource)).flatMap
          Message.output = line ++ ['\n'] ∧
        Failure.ofLine? line = some ⟨filterFile.text,
          (position? filterFault (some filterSource)).getD (0, 0), filterFault.code,
          messageOf filterFault⟩ ∧
        line.count '\n' = (messageOf filterFault).count '\n' ∧
        ('\n' ∉ line ↔ ∀ t ∈ filterFault.quoted, '\n' ∉ t) := by
  have hformat : (⟨.machine, true⟩ : Style).format = .machine := rfl
  have hcolon : ':' ∉ filterFile.text := by decide
  have hbreak : '\n' ∉ filterFile.text := by decide
  have hfault : Conversion.ofSource ⟨true, .default⟩ filterSource = .error filterFault := by
    decide +kernel
  exact ⟨hfault, hcolon, hbreak, failure_of_machine hformat hcolon hbreak filterFault
    (some filterSource)⟩

/-- An expression with a line break is repeated as it is written. -/
theorem exists_failure_on_two_lines :
    ∃ (source : Text) (fault : Conversion.Fault) (file : Path),
      Conversion.ofSource ⟨true, .default⟩ source = .error fault ∧
        ':' ∉ file.text ∧ '\n' ∉ file.text ∧
        ((failure ⟨.machine, false⟩ file fault (some source)).flatMap Message.output).count '\n' =
          2 := by
  refine ⟨"<template><p>\x7b\x7ba\n| b\x7d\x7d</p></template>",
    .rendering (.expression "a\n| b" .filter ⟨3, 12⟩) 10, ⟨"a.vue"⟩, ?_, ?_, ?_, ?_⟩
  · decide +kernel
  · decide
  · decide
  · decide +kernel

end Report

end Wxml
