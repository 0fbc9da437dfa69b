import JsonDoc.Proofs.Syntax.EventTexts
import JsonDoc.Proofs.Syntax.RelaxedComplete

/-!
# Control bytes in strings

A byte below 0x20 that stands by itself ends the reading of a string with an error. After a
backslash any byte is taken, so this is the one place where such a byte gets into the text of a
string: `escaped_of_control`, for every string event of every run, whether the run succeeds or not.
-/

namespace JsonDoc
namespace Syntax

open Grammar

/-- The place between `before` and `after` is the second byte of an escape of two bytes in a quoted
string, with content on both sides of the escape. -/
def InEscape (before after : List UInt8) : Prop :=
  ∃ content more, before = Byte.quote :: (content ++ [Byte.backslash]) ∧
    after = more ++ [Byte.quote] ∧ IsContent content ∧ IsContent more

variable {text content before after : List UInt8} {b : UInt8}

theorem ne_of_isControl
    {c : UInt8}
    (control : Byte.isControl b)
    (printable : 0x20 ≤ c) :
    b ≠ c := by
  rintro rfl
  simp only [Byte.isControl, decide_eq_true_eq] at control
  exact absurd control (UInt8.not_lt.mpr printable)

theorem isWordPart_of_isControl
    (control : Byte.isControl b) :
    Byte.isWordPart b = false := by
  simp only [Byte.isControl, decide_eq_true_eq, UInt8.lt_iff_toNat_lt] at control
  have small : b.toNat < 32 := control
  cases part : Byte.isWordPart b with
  | false =>
      rfl
  | true =>
      simp only [Byte.isWordPart, Byte.isLetter, Byte.isDigit, Bool.or_eq_true, Bool.and_eq_true,
        decide_eq_true_eq, beq_iff_eq, UInt8.le_iff_toNat_le] at part
      rcases part with ((⟨low, _⟩ | ⟨low, _⟩) | ⟨low, _⟩) | rfl
      · have low : 65 ≤ b.toNat := low
        omega
      · have low : 97 ≤ b.toNat := low
        omega
      · have low : 48 ≤ b.toNat := low
        omega
      · exact absurd small (by decide)

theorem not_isControl_of_isHexDigit
    (h : Byte.isHexDigit b) :
    ¬ Byte.isControl b := by
  intro control
  have part := isWordPart_of_isControl control
  simp [isWordPart_of_isHexDigit h] at part

/-! ## Content -/

/-- Every control byte of a text comes right after a backslash that begins an escape. -/
def EscapesControls (text : List UInt8) : Prop :=
  ∀ (before after : List UInt8) (b : UInt8), text = before ++ b :: after → Byte.isControl b →
    ∃ content, before = content ++ [Byte.backslash] ∧ IsContent content ∧ IsContent after

/-- An item of content without control bytes may come first. -/
theorem EscapesControls.item
    {item more : List UInt8}
    (none : ∀ b ∈ item, ¬ Byte.isControl b)
    (isItem : ∀ content, IsContent content → IsContent (item ++ content))
    (h : EscapesControls more) :
    EscapesControls (item ++ more) := by
  intro before after b whole control
  obtain ⟨front, rfl, split⟩ : ∃ front, before = item ++ front ∧ more = front ++ b :: after := by
    rcases List.append_eq_append_iff.mp whole with ⟨front, eq, rest⟩ | ⟨back, eq, rest⟩
    · exact ⟨front, eq, rest⟩
    · cases back with
      | nil =>
          exact ⟨[], by simpa using eq.symm, rest.symm⟩
      | cons first back =>
          cases rest
          exact absurd control (none b (by simp [eq]))
  obtain ⟨content, rfl, isContent, isMore⟩ := h front after b split control
  exact ⟨item ++ content, by simp, isItem content isContent, isMore⟩

/-- An escape of two bytes is the one item with room for a control byte. -/
theorem EscapesControls.escape
    {c : UInt8} {more : List UInt8}
    (notU : c ≠ Byte.lowerU)
    (isMore : IsContent more)
    (h : EscapesControls more) :
    EscapesControls (Byte.backslash :: c :: more) := by
  intro before after b split control
  match before with
  | [] =>
      cases split
      exact absurd control (by decide)
  | [_] =>
      cases split
      exact ⟨[], rfl, .nil, isMore⟩
  | _ :: _ :: before =>
      cases split
      obtain ⟨content, rfl, isContent, isMore⟩ := h before after b rfl control
      exact ⟨_, rfl, .escape notU isContent, isMore⟩

theorem IsContent.escapesControls
    (h : IsContent text) :
    EscapesControls text := by
  induction h with
  | nil =>
      intro before after b split
      simp at split
  | @plain c _ printable notQuote notBackslash _ ih =>
      have none : ∀ b ∈ [c], ¬ Byte.isControl b := by
        intro b mem control
        exact absurd (List.mem_singleton.mp mem) (ne_of_isControl control printable)
      exact ih.item none fun _ => .plain printable notQuote notBackslash
  | escape notU isMore ih =>
      exact ih.escape notU isMore
  | @unicode p q r s _ hp hq hr hs _ ih =>
      have none : ∀ b ∈ [Byte.backslash, Byte.lowerU, p, q, r, s], ¬ Byte.isControl b := by
        simp only [List.forall_mem_cons]
        exact ⟨by decide, by decide, not_isControl_of_isHexDigit hp, not_isControl_of_isHexDigit hq,
          not_isControl_of_isHexDigit hr, not_isControl_of_isHexDigit hs, by simp⟩
      exact ih.item none fun _ => .unicode hp hq hr hs

/-- The quotes around the content are no control bytes. -/
theorem inEscape_of_quoted
    (isContent : IsContent content)
    (split : quoted content = before ++ b :: after)
    (control : Byte.isControl b) :
    InEscape before after := by
  have notQuote : b ≠ Byte.quote := ne_of_isControl control (by decide)
  cases before with
  | nil =>
      cases split
      exact absurd rfl notQuote
  | cons first before =>
      simp only [quoted, List.cons_append, List.cons.injEq] at split
      obtain ⟨rfl, inside⟩ := split
      rcases List.eq_nil_or_concat after with rfl | ⟨more, last, eq⟩
      · have ends := congrArg List.getLast? inside
        simp at ends
        exact absurd ends.symm notQuote
      · rw [List.concat_eq_append] at eq
        subst eq
        rw [← List.cons_append, ← List.append_assoc] at inside
        obtain ⟨split, last⟩ := List.append_inj' inside rfl
        cases last
        obtain ⟨front, rfl, isFront, isMore⟩ := isContent.escapesControls _ _ _ split control
        exact ⟨front, more, rfl, rfl, isFront, isMore⟩

/-- A control byte in the text of a string token comes right after a backslash that begins an
escape. -/
theorem IsStringToken.inEscape
    (h : IsStringToken text)
    (split : text = before ++ b :: after)
    (control : Byte.isControl b) :
    InEscape before after := by
  cases h with
  | quoted isContent =>
      exact inEscape_of_quoted isContent split control
  | word isWord =>
      have part := isWord.isWordPart b (by simp [split])
      simp [isWordPart_of_isControl control] at part

/-! ## Runs -/

/-- In the text of a string event a byte below 0x20 stands only right after a backslash that begins
an escape. This holds in both dialects, under every limit of depth, and also of the events before an
error. -/
theorem escaped_of_control
    (g : Grammar)
    (maxDepth : Option Nat)
    (input : List UInt8)
    (event : Event)
    (mem : event ∈ (g.read maxDepth input).events)
    (isString : event.kind = .string)
    (before after : List UInt8)
    (b : UInt8)
    (split : event.text = before ++ b :: after)
    (control : b < 0x20) :
    InEscape before after :=
  ((isToken_read g maxDepth input event mem).string isString).inEscape split
    (decide_eq_true control)

/-- A string that holds nothing but a backslash and a line feed. -/
def continuedLine : List UInt8 := quoted [Byte.backslash, Byte.lineFeed]

theorem escaped_of_control_continuedLine :
    (∃ event ∈ (Grammar.strict.read none continuedLine).events, event.kind = .string ∧
      event.text = [Byte.quote, Byte.backslash] ++ Byte.lineFeed :: [Byte.quote] ∧
      Byte.lineFeed < 0x20) ∧ InEscape [Byte.quote, Byte.backslash] [Byte.quote] := by
  let event : Event := ⟨.string, ⟨0, 4⟩, continuedLine⟩
  have mem : event ∈ (Grammar.strict.read none continuedLine).events := by decide
  exact ⟨⟨event, mem, rfl, rfl, by decide⟩,
    escaped_of_control .strict none continuedLine event mem rfl _ _ _ rfl (by decide)⟩

/-- After a backslash a line feed gets into a string, in both dialects. -/
theorem control_in_string :
    (∃ event ∈ (Grammar.strict.read none continuedLine).events,
        event.kind = .string ∧ ∃ b ∈ event.text, b < 0x20) ∧
      (∃ event ∈ (Grammar.relaxed.read none continuedLine).events,
        event.kind = .string ∧ ∃ b ∈ event.text, b < 0x20) := by
  let event : Event := ⟨.string, ⟨0, 4⟩, continuedLine⟩
  have control : ∃ b ∈ event.text, b < 0x20 := ⟨Byte.lineFeed, by decide, by decide⟩
  exact ⟨⟨event, by decide, rfl, control⟩, ⟨event, by decide, rfl, control⟩⟩

end Syntax
end JsonDoc
