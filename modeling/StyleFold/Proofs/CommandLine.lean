import StyleFold.CommandLine
import Mathlib

/-!
The command line against the converter behind it. A run prints the text of a conversion as it is and
fails just where there is none, with the reason for it.
-/
namespace StyleFold
open Invocation

variable {c : Converter} {i : Invocation} {input : ByteArray}
  {argument : Option String} {shorthand text : String} {missing : Failure}
  {r : Result (Option String)}

/-- How a text reaches a conversion: as an argument, or in UTF-8 on the standard input. -/
inductive Supplied (input : ByteArray) : Option String → String → Prop
  | argument {text : String} (h : text ≠ "-") : Supplied input (some text) text
  | omitted {text : String} (h : input = text.toUTF8) : Supplied input none text
  | hyphen {text : String} (h : input = text.toUTF8) : Supplied input (some "-") text

namespace Outcome

def complaint? : Outcome → Option String
  | failed failure => some failure.message
  | _ => none

/-- A run that prints the text of a conversion or fails for want of one. -/
structure Reports (o : Outcome) (r : Result (Option String)) : Prop where
  printed : ∀ s, o.exitCode = 0 ∧ o.output = s ↔ r = .ok (some s)
  failed : (∀ s, r ≠ .ok (some s)) → o.exitCode = 1 ∧ o.output = ""
  complained : ∀ e, r = .error e → o.complaint? = some e.message

end Outcome

namespace Invocation

def notExpanded : Result (List Declaration) → Failure
  | .ok (d :: _) => .unsupported d.property
  | _ => .noDeclaration

def settle (missing : Failure) : Result (Option String) → Except Failure String
  | .ok (some s) => .ok s
  | .ok none => .error missing
  | .error e => .error (.conversion e)

theorem source_of_supplied (h : Supplied input argument text) :
    source argument input = .ok text := by
  have hdecode (text : String) : decodeInput text.toUTF8 = .ok text := by
    have htext : String.fromUTF8? text.toUTF8 = some text := dif_pos text.isValidUTF8
    rw [decodeInput, htext]
  cases h with
  | argument hne => simp [source, readsInput, hne]
  | omitted hinput =>
    rw [hinput]
    exact hdecode text
  | hyphen hinput =>
    rw [hinput]
    exact hdecode text

theorem expand_eq_settle (c : Converter) (text : String) :
    expand c false text = settle (notExpanded (c.read text)) (c.expand text) := by
  rw [expand, Converter.expand]
  cases c.read text with
  | error e => rfl
  | ok ds =>
    cases ds with
    | nil => rfl
    | cons d ds =>
      simp only [convert, bind, Except.bind]
      cases c.expandDeclaration d with
      | error e => rfl
      | ok longhands => cases longhands <;> rfl

theorem collapse_eq_settle (c : Converter) (shorthand text : String) :
    collapse c false shorthand text =
      settle (.unsupported shorthand) (c.collapse shorthand text) := by
  rw [collapse, Converter.collapse]
  cases c.read text with
  | error e => rfl
  | ok ds =>
    simp only [convert, bind, Except.bind]
    cases c.collapseDeclarations shorthand ds with
    | error e => rfl
    | ok d =>
      cases d with
      | none => rfl
      | some d => simp [settle, Declaration.printAll]

theorem answer_expand (settings : Settings) (h : Supplied input argument text) :
    answer ⟨.expand argument, settings, false⟩ input =
      settle (notExpanded ((Converter.ofSettings settings).read text))
        ((Converter.ofSettings settings).expand text) := by
  simp only [answer, source_of_supplied h]
  exact expand_eq_settle (Converter.ofSettings settings) text

theorem answer_collapse (settings : Settings) (h : Supplied input argument text)
    (shorthand : String) :
    answer ⟨.collapse shorthand argument, settings, false⟩ input =
      settle (.unsupported shorthand) ((Converter.ofSettings settings).collapse shorthand text) := by
  simp only [answer, source_of_supplied h]
  exact collapse_eq_settle (Converter.ofSettings settings) shorthand text

/-- A run reports what settles its answer. -/
theorem reports_of_settle (h : i.answer input = settle missing r) :
    (i.run input).Reports r ∧
      (r = .ok none → (i.run input).complaint? = some missing.message) := by
  rw [run, h]
  cases r with
  | error e =>
    refine ⟨⟨fun s => ?_, fun _ => ⟨rfl, rfl⟩, fun e' he => ?_⟩, fun hnone => ?_⟩
    · simp [settle, Outcome.exitCode]
    · cases he
      rfl
    · cases hnone
  | ok found =>
    cases found with
    | none =>
      refine ⟨⟨fun s => ?_, fun _ => ⟨rfl, rfl⟩, fun e he => ?_⟩, fun _ => rfl⟩
      · simp [settle, Outcome.exitCode]
      · cases he
    | some s =>
      refine ⟨⟨fun t => ?_, fun hnone => ?_, fun e he => ?_⟩, fun hnone => ?_⟩
      · simp [settle, Outcome.exitCode, Outcome.output]
      · exact absurd rfl (hnone s)
      · cases he
      · cases hnone

/-- The command line converts a text as the converter of its settings does. Where that has no result
the run tells why: there is no declaration, or no shorthand of the name in question. -/
theorem run_reports (settings : Settings) (h : Supplied input argument text) :
    let c := Converter.ofSettings settings
    let expanded := run ⟨.expand argument, settings, false⟩ input
    (expanded.Reports (c.expand text) ∧
      (c.read text = .ok [] → expanded.complaint? = some Failure.noDeclaration.message) ∧
      ∀ d ds, c.read text = .ok (d :: ds) → c.expand text = .ok none →
        expanded.complaint? = some (Failure.unsupported d.property).message) ∧
    ∀ shorthand,
      let collapsed := run ⟨.collapse shorthand argument, settings, false⟩ input
      collapsed.Reports (c.collapse shorthand text) ∧
        (c.collapse shorthand text = .ok none →
          collapsed.complaint? = some (Failure.unsupported shorthand).message) := by
  intro c expanded
  obtain ⟨hreports, hmissing⟩ := reports_of_settle (answer_expand settings h)
  refine ⟨⟨hreports, fun hread => ?_, fun d ds hread hnone => ?_⟩, fun shorthand => ?_⟩
  · have hnone : c.expand text = .ok none := by
      rw [Converter.expand, hread]
      rfl
    rw [hmissing hnone, hread]
    rfl
  · rw [hmissing hnone, hread]
    rfl
  · exact reports_of_settle (answer_collapse settings h shorthand)

theorem run_reports_hyphen :
    Supplied "color: red".toUTF8 (some "-") "color: red" ∧
      (run ⟨.expand (some "-"), .standard, false⟩ "color: red".toUTF8).complaint? =
        some "no shorthand provider for 'color'" := by
  have h : Supplied "color: red".toUTF8 (some "-") "color: red" := .hyphen rfl
  obtain ⟨⟨-, -, hmissing⟩, -⟩ := run_reports .standard h
  exact ⟨h, hmissing ⟨"color", "red", false⟩ [] (by decide +kernel) (by decide +kernel)⟩

end Invocation
end StyleFold
