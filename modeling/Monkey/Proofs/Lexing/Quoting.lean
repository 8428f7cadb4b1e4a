import Monkey.Proofs.Lexing.Bytes

/-!
# Quoted Text is Read Back

The writer of string literals and the reader of a source undo each other.

The writer looks at one character at a time and puts a backslash in front of
some. The reader has to find the end of what was written without knowing what
it was, and whatever stands behind the closing quote must not matter. It does
not: all quotes of the contents are hidden in pairs, so the first bare quote is
the one that the writer put at the end.

What stands behind the literal is then read as if it was a source of its own,
but at another place. A reader does not ask where it is. It counts bytes and
puts the count into the spans of tokens, and that is all, so a reader that
started to count at another number yields the same tokens with their spans
moved (`Lexer.next_moved`).

## Main definitions

* `Span.moved`, `Token.moved`, `Lexer.moved`: Spans, tokens and readers at
  another place.
* `Lexer.quotedLength`: How long a literal is.

## Theorems

* `Lexer.next_moved`: What one call does at another place.
* `Lexer.after_moved`, `Lexer.afterAsking_moved`: What several calls do there.
* `Lexer.readToEnd_moved`: What is read to the end there.
* `Lexer.next_quoted`: A literal is the first token.
* `Lexer.read_quoted`: A source that starts with a literal.
-/

namespace Monkey

/-- A span that lies at a distance behind another one. -/
def Span.moved (distance : Nat) (s : Span) : Span :=
  ⟨distance + s.start, distance + s.stop⟩

/-- A token that stands at a distance behind another one like it. -/
def Token.moved (distance : Nat) (t : Token) : Token :=
  { t with span := t.span.moved distance }

namespace Lexer

/-- A reader of the same text that stands at a distance behind another one. -/
def moved (distance : Nat) (lx : Lexer) : Lexer :=
  { lx with offset := distance + lx.offset }

/-- What a reader yields does not depend on where it stands, but for the spans. -/
theorem next_moved (distance : Nat) (lx : Lexer) :
    (lx.moved distance).next = (lx.next.1.moved distance, lx.next.2.moved distance) := by
  unfold next moved
  simp only [Nat.add_assoc]
  cases lx.rest.dropWhile Text.isSeparator <;> rfl

theorem next?_moved (distance : Nat) (lx : Lexer) :
    (lx.moved distance).next?
      = lx.next?.map fun found => (found.1.moved distance, found.2.moved distance) := by
  unfold next?
  rw [next_moved, show (lx.moved distance).exhausted = lx.exhausted from rfl]
  cases lx.exhausted <;> rfl

/-- Calls of `next` keep the distance of two readers. -/
theorem after_moved (distance : Nat) (lx : Lexer) (k : Nat) :
    (lx.moved distance).after k = (lx.after k).moved distance := by
  induction k generalizing lx with
  | zero => rfl
  | succ k ih => rw [after, next_moved, ih, after]

/-- Calls of `next?` keep it too, behind the end of input as well. -/
theorem afterAsking_moved (distance : Nat) (lx : Lexer) (k : Nat) :
    (lx.moved distance).afterAsking k = (lx.afterAsking k).moved distance := by
  induction k generalizing lx with
  | zero => rfl
  | succ k ih =>
      rw [afterAsking, afterAsking, next?_moved]
      cases lx.next? with
      | none => exact ih lx
      | some found => exact ih found.2

/-- The tokens that are left are moved as the reader is. -/
theorem readToEnd_moved (distance : Nat) (lx : Lexer) :
    (lx.moved distance).readToEnd
      = ⟨lx.readToEnd.tokens.map (Token.moved distance), distance + lx.readToEnd.length⟩ := by
  fun_induction readToEnd lx with
  | case1 lx hend =>
      have hmoved : (lx.moved distance).next.1.kind = .finish := by
        rw [next_moved]
        exact hend
      rw [readToEnd, dif_pos hmoved, next_moved]
      rfl
  | case2 lx hend behind ih =>
      have hmoved : ¬(lx.moved distance).next.1.kind = .finish := by
        rw [next_moved]
        exact hend
      rw [readToEnd, dif_neg hmoved, next_moved]
      simp only [ih, behind, List.map_cons]

/-- The length of a literal in bytes: that of the escaped contents, and the two
    quotes. -/
def quotedLength (contents : String) : Nat :=
  (Text.escape contents).utf8ByteSize + 2

theorem byteLength_quoted (contents : String) :
    byteLength ('"' :: (Text.escapeChars contents.toList ++ ['"'])) = quotedLength contents := by
  have hescape : byteLength (Text.escapeChars contents.toList)
      = (Text.escape contents).utf8ByteSize := byteLength_eq _
  rw [← List.singleton_append, byteLength_append, byteLength_append, hescape]
  exact Nat.add_comm 1 _

/-- A literal at the front of a source is its first token, whatever stands behind
    it, and behind it the reader is as at the start of that, but for the distance. -/
theorem next_quoted (contents following : String) :
    (ofString (Text.quoted contents ++ following)).next
      = (⟨.string, contents, ⟨0, quotedLength contents⟩⟩,
        (ofString following).moved (quotedLength contents)) := by
  have hnext := next_char (List.forall_mem_nil _) (c := '"') (by decide)
    (Text.escapeChars contents.toList ++ '"' :: following.toList) 0 false
  rw [munch_quoted, List.nil_append, ← toList_quoted, byteLength_quoted, String.ofList_toList]
    at hnext
  rw [ofString, String.toList_append, hnext]
  simp only [byteLength, List.foldr_nil, Nat.zero_add]
  rfl

/-- Whatever is written as a literal is read back, and nothing that stands behind
    the literal is touched. The first token is the string with the contents that
    were written, and its span is the whole literal with both quotes. All other
    tokens, and the end of input, are those of the text behind it, moved by that
    length, be it that one calls `next` or asks the iterator. A reader that goes
    byte by byte has collected the contents at the closing quote, and is in front
    of the same text. -/
theorem read_quoted (contents following : String) :
    (ofString (Text.quoted contents ++ following)).next.1
      = ⟨.string, contents, ⟨0, quotedLength contents⟩⟩ ∧
    (∀ k, ((ofString (Text.quoted contents ++ following)).after (k + 1)).next.1
      = (((ofString following).after k).next.1).moved (quotedLength contents)) ∧
    (∀ k, ((ofString (Text.quoted contents ++ following)).afterAsking (k + 1)).next?.map Prod.fst
      = (((ofString following).afterAsking k).next?.map Prod.fst).map
          (Token.moved (quotedLength contents))) ∧
    (read (Text.quoted contents ++ following)).tokens
      = ⟨.string, contents, ⟨0, quotedLength contents⟩⟩ ::
        (read following).tokens.map (Token.moved (quotedLength contents)) ∧
    (read (Text.quoted contents ++ following)).length
      = quotedLength contents + (read following).length ∧
    Text.collect [] (Text.bytes (Text.escape contents ++ "\"" ++ following))
      = some (Text.bytes contents, Text.bytes following) := by
  have hnext := next_quoted contents following
  have hkind : ¬(ofString (Text.quoted contents ++ following)).next.1.kind = .finish := by
    rw [hnext]
    exact nofun
  have hread : read (Text.quoted contents ++ following)
      = ⟨⟨.string, contents, ⟨0, quotedLength contents⟩⟩ ::
          (read following).tokens.map (Token.moved (quotedLength contents)),
        quotedLength contents + (read following).length⟩ := by
    rw [read, readToEnd, dif_neg hkind, hnext]
    simp only [readToEnd_moved]
    rfl
  refine ⟨congrArg Prod.fst hnext, fun k => ?_, fun k => ?_, congrArg Reading.tokens hread,
    congrArg Reading.length hread, ?_⟩
  · rw [after, hnext, after_moved, next_moved]
  · rw [afterAsking, next?_of_ne_finish rfl hkind, hnext, Option.elim_some, afterAsking_moved,
      next?_moved, Option.map_map, Option.map_map]
    rfl
  · -- The byte reader starts behind the first quote.
    have htext : (Text.escape contents ++ "\"" ++ following).toList
        = Text.escapeChars contents.toList ++ '"' :: following.toList := by
      simp only [Text.escape, String.toList_append, String.toList_ofList, List.append_assoc]
      rfl
    rw [Text.bytes_eq, htext, Text.collect_encode, Text.splitQuote_escapeChars, Option.map_some,
      Text.unescapeChars_escapeChars, List.nil_append, ← Text.bytes_eq, ← Text.bytes_eq]

end Lexer

end Monkey
