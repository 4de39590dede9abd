import MarkdownDirectives.Proofs.Escapes
import MarkdownDirectives.Proofs.MaximalMunch

/-!
# String literals

The inside of a literal is decoded from left to right, and whether a word is made of it does not
show. Every text can be written as a literal: its backslashes and the marks around the literal get
a backslash in front, and every other character is written as it is.
-/

namespace MarkdownDirectives.Escape

/-- A character as it is written between two quotation marks. -/
def quoteChar (quote c : Char) : Text := if c = '\\' ∨ c = quote then ['\\', c] else [c]

/-- The text as a literal. -/
def quoted (quote : Char) (t : Text) : Text := quote :: (t.flatMap (quoteChar quote) ++ [quote])

variable {quote : Char}

theorem isQuotable_quoteChar (hq : quote ≠ '\n') (t : Text) :
    Token.IsQuotable quote (t.flatMap (quoteChar quote)) := by
  induction t with
  | nil => exact .nil
  | cons c t ih =>
    rw [List.flatMap_cons, quoteChar]
    split
    · next hc =>
      refine .escaped ?_ ih
      rcases hc with rfl | rfl
      · decide
      · exact hq
    · next hc =>
      obtain ⟨hslash, hmark⟩ := not_or.mp hc
      exact .plain hmark hslash ih

theorem decodes_quoteChar (hq : short? quote = some quote) (t : Text) :
    Decodes IsPlain (t.flatMap (quoteChar quote)) t := by
  induction t with
  | nil => exact .nil
  | cons c t ih =>
    rw [List.flatMap_cons, quoteChar]
    split
    · next hc =>
      refine .escape (.short ?_) ih
      rcases hc with rfl | rfl
      · rfl
      · exact hq
    · next hc => exact .char (not_or.mp hc).1 ih

theorem tokenize_quoted (hq : quote = '"' ∨ quote = '\'') (t : Text) :
    Token.tokenize (quoted quote t) = .ok [⟨.string t quote, 0⟩] := by
  have hfeed : quote ≠ '\n' := by rcases hq with rfl | rfl <;> decide
  have hshort : short? quote = some quote := by rcases hq with rfl | rfl <;> rfl
  have hlexeme := Token.Lexeme.string hq (isQuotable_quoteChar hfeed t)
  rw [decode_eq_some_iff.mpr (decodes_quoteChar hshort t)] at hlexeme
  exact Token.tokenize_lexeme hlexeme

/-- Whichever function decodes the words: the inside of a literal stands for the row of escapes and
characters that it is, or for nothing if a backslash starts no escape, and without a backslash no
word is needed. Every text is what some literal stands for. -/
theorem decodeBy_uniform {unquote : Text → Option Text} (h : ReadsWords unquote) (t : Text) :
    (∀ s, decodeBy unquote t = some s ↔ Decodes IsPlain t s) ∧
    (decodeBy unquote t = none ↔ Faulty IsPlain t) ∧
    decodeBy unquote t = decodeWord unquote t ∧
    decodeBy unquote t = decode t ∧
    ∀ quote, quote = '"' ∨ quote = '\'' →
      Token.tokenize (quoted quote t) = .ok [⟨.string t quote, 0⟩] := by
  have hsame : decodeBy unquote t = decode t :=
    Option.ext fun s => h.decodeBy_eq_some_iff.trans decode_eq_some_iff.symm
  exact ⟨fun s => h.decodeBy_eq_some_iff, h.decodeBy_eq_none_iff, h.decodeBy_eq t, hsame,
    fun quote hq => tokenize_quoted hq t⟩

/-- A bare quotation mark, one that is written by its code point, and the two short escapes that a
literal between single quotation marks needs. -/
def mixedInside : Text := "say \"\\u\x7b+22\x7d\\\\\\'".toList

theorem decodeBy_uniform_mixedInside :
    ReadsWords unquote ∧ decodeBy unquote mixedInside = some "say \"\"\\'".toList ∧
      Decodes IsPlain mixedInside "say \"\"\\'".toList ∧
      Token.tokenize (quoted '\'' mixedInside) = .ok [⟨.string mixedInside '\'', 0⟩] := by
  obtain ⟨hvalue, -, -, -, hquoted⟩ := decodeBy_uniform readsWords_unquote mixedInside
  have hdecode : decodeBy unquote mixedInside = some "say \"\"\\'".toList := by decide
  exact ⟨readsWords_unquote, hdecode, (hvalue _).mp hdecode, hquoted '\'' (.inr rfl)⟩

end MarkdownDirectives.Escape
