import Mathlib.Data.List.TakeWhile
import Monkey.Proofs.Printing.Spelling

/-!
# Tokens Cover a Source

Nothing of a source is lost between its tokens.

The lexer works on characters and counts bytes, and what it reports are bytes.
So what has to be shown is said about the bytes of the UTF-8 encoding, which
the lexer never looks at: the spans of the tokens lie in order, no character is
cut in two by one of them, and whatever lies between two spans consists of
blanks. A source can be put together again from its tokens and the gaps
between them.

The reason is that the offset of a reader is the length of the text in front
of what it has still to read (`Lexer.At`). Everything that is cut off then
stands in the source between the offset before and the offset behind, and this
is turned into a statement about bytes in one place, `Span.bytes_of_split`.

The end of input is a token as well. It comes once from the iterator and as
often as one likes otherwise, so `Lexer.after` and `Lexer.afterAsking` count
how often a reader has been asked in each of the two ways.

## Main definitions

* `Text.bytes`, `Text.encode`: The bytes of a text.
* `Span.bytes`: The bytes that a span marks.
* `Span.Cuts`: A span that starts and stops between characters.
* `Span.Blank`: A span that marks nothing but blanks.
* `Token.Marks`: A token that stands in a source where its span says.
* `Lexer.Covers`: Tokens that make up a source together with blanks.
* `Lexer.gaps`, `Lexer.stretches`: The spans around and between tokens.

## Theorems

* `Lexer.At.split`, `Lexer.At.next`: What one call does.
* `Lexer.At.cut`: Where the tokens that are left were cut off.
* `Lexer.At.covers`: The tokens that are left cover what is left.
* `Lexer.Covers.stretches_bytes`: Tokens and gaps make up the source.
* `Lexer.At.after_next`: What calls of `next` yield.
* `Lexer.At.afterAsking_next?`: What calls of `next?` yield.
* `Lexer.read_lossless`: The tokens of a source.
-/

namespace Monkey

/-- The bytes of a string in the UTF-8 encoding. -/
def Text.bytes (text : String) : List UInt8 :=
  text.toByteArray.data.toList

/-- The bytes of one character after the other. -/
def Text.encode (text : List Char) : List UInt8 :=
  text.flatMap String.utf8EncodeChar

/-- The bytes that may stand between tokens: space, tab, line feed, form feed
    and carriage return. -/
def Text.separatorBytes : List UInt8 :=
  [0x20, 0x09, 0x0a, 0x0c, 0x0d]

namespace Span

/-- The bytes of a source that a span marks. -/
def bytes (source : String) (s : Span) : List UInt8 :=
  (source.toByteArray.extract s.start s.stop).data.toList

/-- A span that starts and stops between two characters of a source, and not
    behind its end. -/
def Cuts (source : String) (s : Span) : Prop :=
  String.Pos.Raw.IsValid source ⟨s.start⟩ ∧ String.Pos.Raw.IsValid source ⟨s.stop⟩

/-- A span that marks nothing but blanks. -/
def Blank (source : String) (s : Span) : Prop :=
  s.start ≤ s.stop ∧ ∀ b ∈ s.bytes source, b ∈ Text.separatorBytes

end Span

/-- A token that is not the end of input and stands in a source where its span
    says. Only the literal of a string differs from the text that it is read
    from. -/
structure Token.Marks (source : String) (t : Token) : Prop where
  kind : t.kind ≠ .finish
  nonempty : t.span.start < t.span.stop
  cuts : t.span.Cuts source
  literal : t.kind ≠ .string → Text.bytes t.literal = t.span.bytes source

namespace Text

theorem encode_cons (c : Char) (text : List Char) :
    encode (c :: text) = String.utf8EncodeChar c ++ encode text :=
  List.flatMap_cons

theorem encode_append (front text : List Char) :
    encode (front ++ text) = encode front ++ encode text :=
  List.flatMap_append

theorem bytes_ofList (text : List Char) : bytes (String.ofList text) = encode text := by
  simp only [bytes, encode, String.toByteArray_ofList, List.utf8Encode, List.data_toByteArray]

theorem bytes_eq (text : String) : bytes text = encode text.toList := by
  rw [← bytes_ofList, String.ofList_toList]

end Text

namespace Lexer

theorem byteLength_eq (text : List Char) : byteLength text = (String.ofList text).utf8ByteSize := by
  induction text with
  | nil => simp only [byteLength, List.foldr_nil, String.ofList_nil, String.utf8ByteSize_empty]
  | cons c text ih =>
      rw [String.ofList_cons, String.utf8ByteSize_append, String.utf8ByteSize_singleton, ← ih]
      rfl

theorem byteLength_append (front text : List Char) :
    byteLength (front ++ text) = byteLength front + byteLength text := by
  simp only [byteLength_eq, String.ofList_append, String.utf8ByteSize_append]

theorem byteLength_pos {text : List Char} (h : text ≠ []) : 0 < byteLength text := by
  cases text with
  | nil => exact absurd rfl h
  | cons c text =>
      have hpos := Char.utf8Size_pos c
      simp only [byteLength, List.foldr_cons]
      omega

end Lexer

namespace Span

open Lexer

variable {source : String} {front text rest : List Char}

/-- What stands in a source between two of its characters is marked by the
    span between them. -/
theorem bytes_of_split (h : source.toList = front ++ text ++ rest) :
    bytes source ⟨byteLength front, byteLength (front ++ text)⟩
      = Text.bytes (String.ofList text) := by
  have hsource : source = String.ofList front ++ String.ofList text ++ String.ofList rest := by
    rw [← String.ofList_append, ← String.ofList_append, ← h, String.ofList_toList]
  unfold bytes Text.bytes
  rw [hsource, byteLength_append, byteLength_eq, byteLength_eq, String.toByteArray_append,
    String.toByteArray_append, ByteArray.append_assoc, ← String.size_toByteArray,
    ← String.size_toByteArray]
  -- Past the text in front the extract starts at zero, and it stops where the text does.
  rw [show (String.ofList front).toByteArray.size = (String.ofList front).toByteArray.size + 0 from
    rfl, Nat.add_assoc, Nat.zero_add, ByteArray.extract_append_size_add,
    ByteArray.extract_append_eq_left rfl]

/-- The end of a text in front of another one is a place between characters. -/
theorem isValid_byteLength (h : source.toList = front ++ rest) :
    String.Pos.Raw.IsValid source ⟨byteLength front⟩ := by
  refine String.Pos.Raw.isValid_iff_exists_append.mpr
    ⟨String.ofList front, String.ofList rest, ?_, ?_⟩
  · rw [← String.ofList_append, ← h, String.ofList_toList]
  · rw [byteLength_eq]
    rfl

theorem cuts_of_split (h : source.toList = front ++ text ++ rest) :
    Cuts source ⟨byteLength front, byteLength (front ++ text)⟩ :=
  ⟨isValid_byteLength (h.trans (List.append_assoc ..)), isValid_byteLength h⟩

/-- A blank character is a single byte. -/
theorem separatorBytes_of_isSeparator {text : List Char}
    (h : ∀ c ∈ text, Text.isSeparator c = true) :
    ∀ b ∈ Text.bytes (String.ofList text), b ∈ Text.separatorBytes := by
  intro b hb
  rw [Text.bytes_ofList] at hb
  rcases List.mem_flatMap.mp hb with ⟨c, hc, hmem⟩
  have hblank := h c hc
  simp only [Text.isSeparator, Bool.or_eq_true, beq_iff_eq] at hblank
  have hone : c.utf8Size = 1 := by
    rcases hblank with (((rfl | rfl) | rfl) | rfl) | rfl <;> rfl
  rw [String.utf8EncodeChar_eq_singleton hone, List.mem_singleton] at hmem
  subst hmem
  rcases hblank with (((rfl | rfl) | rfl) | rfl) | rfl <;> decide

theorem blank_of_split (h : source.toList = front ++ text ++ rest)
    (htext : ∀ c ∈ text, Text.isSeparator c = true) :
    Blank source ⟨byteLength front, byteLength (front ++ text)⟩ := by
  refine ⟨?_, ?_⟩
  · rw [byteLength_append]
    exact Nat.le_add_right _ _
  · rw [bytes_of_split h]
    exact separatorBytes_of_isSeparator htext

/-- Two spans that meet mark together what the span over both marks. -/
theorem bytes_append {a b c : Nat} (hab : a ≤ b) (hbc : b ≤ c) :
    bytes source ⟨a, b⟩ ++ bytes source ⟨b, c⟩ = bytes source ⟨a, c⟩ := by
  simp only [bytes, ← Array.toList_append, ← ByteArray.data_append,
    ByteArray.extract_append_extract, Nat.min_eq_left hab, Nat.max_eq_right hbc]

theorem bytes_whole : bytes source ⟨0, source.utf8ByteSize⟩ = Text.bytes source := by
  rw [bytes, ← String.size_toByteArray, ByteArray.extract_zero_size]
  rfl

end Span

namespace Lexer

/-- A reader stands in a source where its offset says. -/
def At (source : String) (lx : Lexer) : Prop :=
  ∃ front, source.toList = front ++ lx.rest ∧ lx.offset = byteLength front

theorem at_ofString (source : String) : At source (ofString source) :=
  ⟨[], rfl, rfl⟩

/-- Only the literal of a string is not the text it was read from. -/
theorem munch_literal {c : Char} {rest : List Char} (h : (munch c rest).kind ≠ .string) :
    (munch c rest).literal = (munch c rest).slice := by
  revert h
  unfold munch
  split
  · exact fun _ => rfl
  · split
    · unfold munchSign
      split <;> exact fun _ => rfl
    · split
      · unfold munchSign
        split <;> exact fun _ => rfl
      · split
        · unfold munchString
          split
          · exact fun h => absurd rfl h
          · exact fun _ => rfl
        · split
          · exact fun _ => rfl
          · split <;> exact fun _ => rfl

/-- A text is blank, or it has a first character that is not. -/
theorem exists_blanks (text : List Char) :
    ∃ blanks : List Char, (∀ c ∈ blanks, Text.isSeparator c = true) ∧
      (text = blanks ∨ ∃ c rest, Text.isSeparator c = false ∧ text = blanks ++ c :: rest) := by
  induction text with
  | nil => exact ⟨[], fun _ hc => absurd hc List.not_mem_nil, .inl rfl⟩
  | cons c text ih =>
      by_cases hc : Text.isSeparator c = true
      · rcases ih with ⟨blanks, hblanks, hrest⟩
        refine ⟨c :: blanks, List.forall_mem_cons.mpr ⟨hc, hblanks⟩, ?_⟩
        rcases hrest with rfl | ⟨d, rest, hd, rfl⟩
        · exact .inl rfl
        · exact .inr ⟨d, rest, hd, rfl⟩
      · exact ⟨[], fun _ hd => absurd hd List.not_mem_nil,
          .inr ⟨c, text, Bool.eq_false_iff.mpr hc, rfl⟩⟩

variable {source : String} {lx : Lexer}

/-- At the end of a text there is the end of input, however many blanks are in
    front of it. -/
theorem next_blank {blanks : List Char} (hblanks : ∀ c ∈ blanks, Text.isSeparator c = true)
    (k : Nat) (exhausted : Bool) :
    (Lexer.mk blanks k exhausted).next =
      (.finish (k + byteLength blanks), ⟨[], k + byteLength blanks, exhausted⟩) := by
  have htake : blanks.takeWhile Text.isSeparator = blanks := List.takeWhile_eq_self_iff.mpr hblanks
  have hdrop : blanks.dropWhile Text.isSeparator = [] := List.dropWhile_eq_nil_iff.mpr hblanks
  unfold next
  simp only [htake, hdrop]

/-- In front of a character that is not a blank there is the token that starts
    with it. -/
theorem next_char {blanks : List Char} (hblanks : ∀ c ∈ blanks, Text.isSeparator c = true)
    {c : Char} (hc : Text.isSeparator c = false) (rest : List Char) (k : Nat) (exhausted : Bool) :
    (Lexer.mk (blanks ++ c :: rest) k exhausted).next =
      (⟨(munch c rest).kind, String.ofList (munch c rest).literal, ⟨k + byteLength blanks,
          k + byteLength blanks + byteLength (munch c rest).slice⟩⟩,
        ⟨(munch c rest).rest, k + byteLength blanks + byteLength (munch c rest).slice,
          exhausted⟩) := by
  have htake : (blanks ++ c :: rest).takeWhile Text.isSeparator = blanks := by
    rw [List.takeWhile_append_of_pos hblanks, List.takeWhile_cons_of_neg (by simp [hc]),
      List.append_nil]
  have hdrop : (blanks ++ c :: rest).dropWhile Text.isSeparator = c :: rest := by
    rw [List.dropWhile_append_of_pos hblanks, List.dropWhile_cons_of_neg (by simp [hc])]
  unfold next
  simp only [htake, hdrop]

/-- What one call of `next` does, by the characters of the source. Behind what was
    read before there are blanks, and then the source ends or a token follows. -/
theorem At.split (h : At source lx) : ∃ front blanks : List Char,
    lx.offset = byteLength front ∧ (∀ c ∈ blanks, Text.isSeparator c = true) ∧
    ((source.toList = front ++ blanks ∧
        lx.next = (.finish (byteLength (front ++ blanks)),
          ⟨[], byteLength (front ++ blanks), lx.exhausted⟩)) ∨
      ∃ c rest, Text.isSeparator c = false ∧
        source.toList = front ++ blanks ++ (munch c rest).slice ++ (munch c rest).rest ∧
        lx.next = (⟨(munch c rest).kind, String.ofList (munch c rest).literal,
            ⟨byteLength (front ++ blanks), byteLength (front ++ blanks ++ (munch c rest).slice)⟩⟩,
          ⟨(munch c rest).rest, byteLength (front ++ blanks ++ (munch c rest).slice),
            lx.exhausted⟩)) := by
  rcases lx with ⟨text, offset, exhausted⟩
  rcases h with ⟨front, hfront, hoffset⟩
  simp only at hfront hoffset
  subst hoffset
  rcases exists_blanks text with ⟨blanks, hblanks, rfl | ⟨c, rest, hc, rfl⟩⟩
  · refine ⟨front, text, rfl, hblanks, .inl ⟨hfront, ?_⟩⟩
    rw [next_blank hblanks, ← byteLength_append]
  · refine ⟨front, blanks, rfl, hblanks, .inr ⟨c, rest, hc, ?_, ?_⟩⟩
    · rw [List.append_assoc (front ++ blanks), munch_slice_append_rest, hfront, List.append_assoc]
    · rw [next_char hblanks hc, ← byteLength_append, ← byteLength_append]

/-- What one call of `next` does: it has come to the end of the source, or it
    yields a token that stands behind nothing but blanks and leaves the reader
    at the end of the token. -/
theorem At.next (h : At source lx) :
    (lx.next = (.finish source.utf8ByteSize, ⟨[], source.utf8ByteSize, lx.exhausted⟩) ∧
      Span.Blank source ⟨lx.offset, source.utf8ByteSize⟩) ∨
    (lx.next.1.Marks source ∧ Span.Blank source ⟨lx.offset, lx.next.1.span.start⟩ ∧
      At source lx.next.2 ∧ lx.next.2.offset = lx.next.1.span.stop) := by
  rcases h.split with ⟨front, blanks, hoffset, hblanks, ⟨hend, hnext⟩ | ⟨c, rest, -, htoken, hnext⟩⟩
  · left
    have hsize : byteLength (front ++ blanks) = source.utf8ByteSize := by
      rw [← hend, byteLength_eq, String.ofList_toList]
    have hsplit : source.toList = front ++ blanks ++ [] := by rw [hend, List.append_nil]
    rw [hnext, hoffset, hsize]
    exact ⟨rfl, hsize ▸ Span.blank_of_split hsplit hblanks⟩
  · right
    have hgap : source.toList
        = front ++ blanks ++ ((munch c rest).slice ++ (munch c rest).rest) := by
      rw [htoken, List.append_assoc (front ++ blanks)]
    have hslice := byteLength_pos (munch_slice_ne_nil c rest)
    rw [hnext, hoffset]
    refine ⟨⟨munch_kind_ne_finish c rest, ?_, Span.cuts_of_split htoken, fun hkind => ?_⟩,
      Span.blank_of_split hgap hblanks, ⟨_, htoken, rfl⟩, rfl⟩
    · rw [byteLength_append (front ++ blanks)]
      exact Nat.lt_add_of_pos_right hslice
    · rw [Span.bytes_of_split htoken, munch_literal hkind]

/-- Where the tokens that are left were cut off. -/
theorem At.cut (h : At source lx) : ∀ t ∈ lx.readToEnd.tokens, ∃ front c rest,
    Text.isSeparator c = false ∧
    source.toList = front ++ (munch c rest).slice ++ (munch c rest).rest ∧
    t = ⟨(munch c rest).kind, String.ofList (munch c rest).literal,
      ⟨byteLength front, byteLength (front ++ (munch c rest).slice)⟩⟩ := by
  fun_induction readToEnd lx with
  | case1 lx hend => exact fun t ht => absurd ht List.not_mem_nil
  | case2 lx hend behind ih =>
      rcases h.split with ⟨front, blanks, -, -, ⟨-, hnext⟩ | ⟨c, rest, hc, htoken, hnext⟩⟩
      · exact absurd (by rw [hnext]; rfl) hend
      · refine List.forall_mem_cons.mpr ⟨⟨front ++ blanks, c, rest, hc, htoken, ?_⟩, ih ?_⟩
        · rw [hnext]
        · rw [hnext]
          exact ⟨_, htoken, rfl⟩

/-- Tokens that make up a source from a byte of it to its end, together with
    blanks in front of each and behind the last. -/
inductive Covers (source : String) : Nat → List Token → Prop where
  | finish {k : Nat} (h : Span.Blank source ⟨k, source.utf8ByteSize⟩) : Covers source k []
  | token {k : Nat} {t : Token} {ts : List Token} (hgap : Span.Blank source ⟨k, t.span.start⟩)
    (ht : t.Marks source) (h : Covers source t.span.stop ts) : Covers source k (t :: ts)

/-- The tokens that are left cover what is left. -/
theorem At.covers (h : At source lx) :
    Covers source lx.offset lx.readToEnd.tokens ∧ lx.readToEnd.length = source.utf8ByteSize := by
  fun_induction readToEnd lx with
  | case1 lx hend =>
      rcases h.next with ⟨hnext, hgap⟩ | ⟨hmarks, -⟩
      · exact ⟨.finish hgap, by rw [hnext]; rfl⟩
      · exact absurd hend hmarks.kind
  | case2 lx hend behind ih =>
      rcases h.next with ⟨hnext, -⟩ | ⟨hmarks, hgap, hat, hoffset⟩
      · exact absurd (by rw [hnext]; rfl) hend
      · rcases ih hat with ⟨hcovers, hlength⟩
        exact ⟨.token hgap hmarks (hoffset ▸ hcovers), hlength⟩

/-- The gaps between tokens, with the one in front of the first and the one
    behind the last. -/
def gaps (k : Nat) (tokens : List Token) (stop : Nat) : List Span :=
  match tokens with
  | [] => [⟨k, stop⟩]
  | t :: ts => ⟨k, t.span.start⟩ :: gaps t.span.stop ts stop

/-- The gaps and the spans of the tokens, as they alternate in a source. -/
def stretches (k : Nat) (tokens : List Token) (stop : Nat) : List Span :=
  match tokens with
  | [] => [⟨k, stop⟩]
  | t :: ts => ⟨k, t.span.start⟩ :: t.span :: stretches t.span.stop ts stop

namespace Covers

variable {k : Nat} {ts : List Token}

theorem marks (h : Covers source k ts) : ∀ t ∈ ts, t.Marks source := by
  induction h with
  | finish _ => exact fun t ht => absurd ht List.not_mem_nil
  | token _ ht _ ih => exact List.forall_mem_cons.mpr ⟨ht, ih⟩

theorem gaps_blank (h : Covers source k ts) :
    ∀ g ∈ gaps k ts source.utf8ByteSize, g.Blank source := by
  induction h with
  | finish h => exact List.forall_mem_cons.mpr ⟨h, fun g hg => absurd hg List.not_mem_nil⟩
  | token hgap _ _ ih => exact List.forall_mem_cons.mpr ⟨hgap, ih⟩

/-- Tokens of a cover start behind the byte that it starts from. -/
theorem le_start (h : Covers source k ts) : ∀ t ∈ ts, k ≤ t.span.start := by
  induction h with
  | finish _ => exact fun t ht => absurd ht List.not_mem_nil
  | token hgap ht _ ih =>
      refine List.forall_mem_cons.mpr ⟨hgap.1, fun u hu => ?_⟩
      exact Nat.le_trans hgap.1 (Nat.le_trans (Nat.le_of_lt ht.nonempty) (ih u hu))

/-- Each token stops before the next one starts. -/
theorem ordered (h : Covers source k ts) :
    ts.Pairwise fun t u => t.span.stop ≤ u.span.start := by
  induction h with
  | finish _ => exact .nil
  | token _ _ h ih => exact .cons h.le_start ih

theorem le_size (h : Covers source k ts) : k ≤ source.utf8ByteSize := by
  induction h with
  | finish h => exact h.1
  | token hgap ht _ ih => exact Nat.le_trans hgap.1 (Nat.le_trans (Nat.le_of_lt ht.nonempty) ih)

/-- What lies between a byte and the end is put together from its gaps and
    tokens. -/
theorem stretches_bytes (h : Covers source k ts) :
    (stretches k ts source.utf8ByteSize).flatMap (Span.bytes source)
      = Span.bytes source ⟨k, source.utf8ByteSize⟩ := by
  induction h with
  | finish _ => simp only [stretches, List.flatMap_cons, List.flatMap_nil, List.append_nil]
  | @token k t ts hgap ht h ih =>
      have hstop := h.le_size
      have hspan := Nat.le_of_lt ht.nonempty
      simp only [stretches, List.flatMap_cons, ih]
      -- First the token and what follows it, then the gap in front of both.
      rw [show t.span = ⟨t.span.start, t.span.stop⟩ from rfl, Span.bytes_append hspan hstop]
      exact Span.bytes_append hgap.1 (Nat.le_trans hspan hstop)

end Covers

/-- A reader after so many calls of `next`. -/
def after (lx : Lexer) : Nat → Lexer
  | 0 => lx
  | k + 1 => lx.next.2.after k

/-- A reader after so many calls of `next?`. A call that yields nothing leaves
    it as it is. -/
def afterAsking (lx : Lexer) : Nat → Lexer
  | 0 => lx
  | k + 1 => (lx.next?.elim lx Prod.snd).afterAsking k

/-- A reader that has come to the end stays there. -/
theorem next_end (n : Nat) (exhausted : Bool) :
    (Lexer.mk [] n exhausted).next = (.finish n, ⟨[], n, exhausted⟩) :=
  next_blank (fun _ hc => absurd hc List.not_mem_nil) n exhausted

theorem after_end (n : Nat) (exhausted : Bool) (k : Nat) :
    (Lexer.mk [] n exhausted).after k = ⟨[], n, exhausted⟩ := by
  induction k with
  | zero => rfl
  | succ k ih => rw [after, next_end, ih]

/-- Calls of `next` yield the tokens that are left, and then the end of input
    again and again. -/
theorem At.after_next (h : At source lx) (k : Nat) :
    (lx.after k).next.1 = lx.readToEnd.tokens.getD k (.finish source.utf8ByteSize) := by
  induction k generalizing lx with
  | zero =>
      rw [readToEnd]
      rcases h.next with ⟨hnext, -⟩ | ⟨hmarks, -⟩
      · have hend : lx.next.1.kind = .finish := by rw [hnext]; rfl
        rw [dif_pos hend, after, hnext]
        rfl
      · rw [dif_neg hmarks.kind]
        rfl
  | succ k ih =>
      rw [readToEnd]
      rcases h.next with ⟨hnext, -⟩ | ⟨hmarks, -, hat, -⟩
      · have hend : lx.next.1.kind = .finish := by rw [hnext]; rfl
        rw [dif_pos hend, after, hnext, after_end, next_end]
        rfl
      · rw [dif_neg hmarks.kind, after, ih hat]
        rfl

/-- The iterator yields what `next` yields as long as it has not yielded the
    end of input. -/
theorem next?_eq (h : lx.exhausted = false) :
    lx.next? = some (lx.next.1, { lx.next.2 with exhausted := lx.next.1.kind == .finish }) := by
  unfold next?
  rw [h]
  rfl

theorem next_exhausted (lx : Lexer) : lx.next.2.exhausted = lx.exhausted := by
  unfold next
  simp only
  cases lx.rest.dropWhile Text.isSeparator <;> rfl

/-- In front of the last token the iterator does what `next` does. -/
theorem next?_of_ne_finish (h : lx.exhausted = false) (hkind : lx.next.1.kind ≠ .finish) :
    lx.next? = some lx.next := by
  rw [next?_eq h, beq_false_of_ne hkind, ← h, ← next_exhausted lx]

theorem afterAsking_end (n k : Nat) :
    (Lexer.mk [] n true).afterAsking k = ⟨[], n, true⟩ := by
  induction k with
  | zero => rfl
  | succ k ih => exact ih

/-- Calls of `next?` yield the tokens that are left, then the end of input
    once, and then nothing. -/
theorem At.afterAsking_next? (h : At source lx) (hfresh : lx.exhausted = false) (k : Nat) :
    (lx.afterAsking k).next?.map Prod.fst
      = (lx.readToEnd.tokens ++ [.finish source.utf8ByteSize])[k]? := by
  induction k generalizing lx with
  | zero =>
      rw [readToEnd, afterAsking, next?_eq hfresh]
      rcases h.next with ⟨hnext, -⟩ | ⟨hmarks, -⟩
      · have hend : lx.next.1.kind = .finish := by rw [hnext]; rfl
        rw [dif_pos hend, hnext]
        rfl
      · rw [dif_neg hmarks.kind]
        rfl
  | succ k ih =>
      rw [readToEnd, afterAsking]
      rcases h.next with ⟨hnext, -⟩ | ⟨hmarks, -, hat, -⟩
      · have hend : lx.next.1.kind = .finish := by rw [hnext]; rfl
        rw [dif_pos hend, next?_eq hfresh, hnext]
        -- The reader is exhausted now, and nothing comes any more.
        change ((Lexer.mk [] source.utf8ByteSize true).afterAsking k).next?.map Prod.fst = none
        rw [afterAsking_end]
        rfl
      · rw [dif_neg hmarks.kind, next?_of_ne_finish hfresh hmarks.kind]
        exact ih hat ((next_exhausted lx).trans hfresh)

/-- The iterator has come to the end when it has yielded the end of input. -/
theorem At.afterAsking_eq (h : At source lx) (hfresh : lx.exhausted = false) {k : Nat}
    (hk : lx.readToEnd.tokens.length < k) :
    lx.afterAsking k = ⟨[], source.utf8ByteSize, true⟩ := by
  induction k generalizing lx with
  | zero => exact absurd hk (Nat.not_lt_zero _)
  | succ k ih =>
      rw [readToEnd] at hk
      rw [afterAsking]
      rcases h.next with ⟨hnext, -⟩ | ⟨hmarks, -, hat, -⟩
      · rw [next?_eq hfresh, hnext]
        exact afterAsking_end _ k
      · rw [dif_neg hmarks.kind] at hk
        rw [next?_of_ne_finish hfresh hmarks.kind]
        exact ih hat ((next_exhausted lx).trans hfresh) (Nat.lt_of_succ_lt_succ hk)

/-- The lexer loses nothing. The tokens of a source have spans that start and
    stop between characters, mark at least one byte and follow one another in
    order; but for strings, their literals are the bytes that they mark. All
    gaps are blank, and the source is put together from gaps and tokens.
    The iterator yields these tokens, then the end of input with an empty
    literal at the end of the source, and then nothing; `next` yields the
    same tokens and then that end of input forever, be it behind the iterator
    or not. -/
theorem read_lossless (source : String) :
    (∀ t ∈ (read source).tokens, t.Marks source) ∧
    (read source).tokens.Pairwise (fun t u => t.span.stop ≤ u.span.start) ∧
    (∀ g ∈ gaps 0 (read source).tokens source.utf8ByteSize, g.Blank source) ∧
    (stretches 0 (read source).tokens source.utf8ByteSize).flatMap (Span.bytes source)
      = Text.bytes source ∧
    (∀ k, ((ofString source).afterAsking k).next?.map Prod.fst
      = ((read source).tokens ++
        [⟨.finish, "", ⟨source.utf8ByteSize, source.utf8ByteSize⟩⟩])[k]?) ∧
    (∀ k, ((ofString source).after k).next.1
      = (read source).tokens.getD k ⟨.finish, "", ⟨source.utf8ByteSize, source.utf8ByteSize⟩⟩) ∧
    ∀ k j, (read source).tokens.length < k →
      (((ofString source).afterAsking k).after j).next.1
        = ⟨.finish, "", ⟨source.utf8ByteSize, source.utf8ByteSize⟩⟩ ∧
      (((ofString source).afterAsking k).after j).next? = none := by
  have hat := at_ofString source
  have hcovers : Covers source 0 (read source).tokens := hat.covers.1
  refine ⟨hcovers.marks, hcovers.ordered, hcovers.gaps_blank,
    hcovers.stretches_bytes.trans Span.bytes_whole, hat.afterAsking_next? rfl, hat.after_next,
    fun k j hk => ?_⟩
  rw [hat.afterAsking_eq rfl hk, after_end]
  exact ⟨congrArg Prod.fst (next_end _ _), rfl⟩

end Lexer

end Monkey
