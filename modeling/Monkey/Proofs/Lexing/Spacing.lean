import Mathlib
import Monkey.Proofs.Lexing.Cover

/-!
# Blanks Between Tokens

How much blank text there is between two tokens does not matter.

What a reader cuts off depends on what stands behind the token, because most
tokens go on as long as they can. But none of them goes on across a blank,
except for a string, and a string knows its own end: the closing quote is part
of it, and if there is none then the string is the last token of its source.
So each token is decided by its own slice, as long as a blank follows or
nothing at all (`Lexer.munch_of_slice`).

A source can therefore be taken apart into the slices of its tokens and put
together again with other blanks, and the same tokens are read from it. Where
two slices met without a blank, one has to be put in, since `=` and `=` would
become one token otherwise. Behind the last slice there may be none, because
the last slice may be a string that was never closed.

## Main definitions

* `Span.text`: The slice of a source that a span marks.
* `Text.Separates`: A text of nothing but blanks.
* `Lexer.laid`: The slices of tokens, with other texts between them.
* `Lexer.placed`: The tokens where their slices stand then.
* `Lexer.respaced`: A source with other blanks.

## Theorems

* `Lexer.munch_of_slice`: A token is decided by its own slice.
* `Lexer.tokensAt_char`, `Lexer.tokensAt_blanks`: The first token of a text, and
  the blanks in front of it.
* `Lexer.tokensAt_laid`: The tokens are read from their slices.
* `Lexer.placed_slices`: They have the same slices where they stand then.
* `Lexer.read_respaced`: The tokens of a source with other blanks.
-/

namespace Monkey

/-- The slice of a source that a span marks. -/
def Span.text (source : String) (s : Span) : String :=
  String.Pos.Raw.extract source ⟨s.start⟩ ⟨s.stop⟩

namespace Text

/-- A text of nothing but blanks, as they may stand between tokens. -/
def Separates (text : String) : Prop :=
  ∀ c ∈ text.toList, isSeparator c = true

instance (text : String) : Decidable (Separates text) :=
  List.decidableBAll (fun c => isSeparator c = true) text.toList

/-- The closing quote is found in the same place whatever stands behind it. -/
theorem splitQuote_behind {text body rest : List Char} (h : splitQuote text = some (body, rest))
    (behind : List Char) : splitQuote (body ++ '"' :: behind) = some (body, behind) := by
  fun_induction splitQuote text generalizing body rest with
  | case1 rest' =>
      simp only [Option.some.injEq, Prod.mk.injEq] at h
      rcases h with ⟨rfl, rfl⟩
      rfl
  | case2 c rest' ih =>
      rcases Option.map_eq_some_iff.mp h with ⟨found, hf, he⟩
      simp only [Prod.mk.injEq] at he
      rcases he with ⟨rfl, rfl⟩
      simp only [List.cons_append, splitQuote, ih hf, Option.map_some]
  | case3 c rest' hquote hpair ih =>
      rcases Option.map_eq_some_iff.mp h with ⟨found, hf, he⟩
      simp only [Prod.mk.injEq] at he
      rcases he with ⟨rfl, rfl⟩
      rw [List.cons_append, splitQuote, ih hf, Option.map_some]
      · exact hquote
      · -- A backslash would have to be the last character, and then there is no quote.
        intro d tail hc _
        cases rest' with
        | nil => exact absurd hf (by simp only [splitQuote, reduceCtorEq, not_false_eq_true])
        | cons e tail' => exact hpair e tail' hc rfl
  | case4 => exact absurd h (by simp only [reduceCtorEq, not_false_eq_true])

end Text

namespace Lexer

theorem utf8ByteSize_eq (text : String) : text.utf8ByteSize = byteLength text.toList := by
  rw [byteLength_eq, String.ofList_toList]

theorem byteLength_eq_utf8Len (text : List Char) : byteLength text = String.utf8Len text := by
  induction text with
  | nil => rfl
  | cons c text ih =>
      rw [String.utf8Len_cons, ← ih]
      exact Nat.add_comm _ _

end Lexer

/-- What stands in a source between two of its characters is the slice that
    the span between them marks. -/
theorem Span.text_of_split {source : String} {front text rest : List Char}
    (h : source.toList = front ++ text ++ rest) :
    Span.text source ⟨Lexer.byteLength front, Lexer.byteLength (front ++ text)⟩
      = String.ofList text := by
  have hsource : source = String.ofList (front ++ text ++ rest) := by
    rw [← h, String.ofList_toList]
  rw [Span.text, hsource, Lexer.byteLength_append, Lexer.byteLength_eq_utf8Len,
    Lexer.byteLength_eq_utf8Len]
  exact String.extract_of_valid front text rest

namespace Lexer

variable {source : String} {lx : Lexer} {c : Char} {rest body behind : List Char}

/-- No name and no number goes on with a blank. -/
theorem separator_ends_run (hc : Text.isSeparator c = true) :
    c.isDigit = false ∧ isNameRest c = false ∧ c ≠ '=' := by
  simp only [Text.isSeparator, Bool.or_eq_true, beq_iff_eq] at hc
  rcases hc with (((rfl | rfl) | rfl) | rfl) | rfl <;> decide

/-- A sign with or without an equals sign behind it. -/
theorem munchSign_of_slice {single double : Kind}
    (hslice : (munchSign c single double rest).slice = c :: body)
    (hbehind : behind.head? ≠ some '=') :
    munchSign c single double (body ++ behind)
      = { munchSign c single double rest with rest := behind } := by
  by_cases hequals : rest.head? = some '='
  · obtain ⟨tail, rfl⟩ : ∃ tail, rest = '=' :: tail := List.head?_eq_some_iff.mp hequals
    have hbody : body = ['='] := (List.cons.inj hslice).2.symm
    rw [hbody]
    rfl
  · rw [munchSign_single hequals] at hslice ⊢
    have hbody : body = [] := (List.cons.inj hslice).2.symm
    rw [hbody, List.nil_append, munchSign_single hbehind]
    rfl

/-- A string that is closed, or one that has nothing behind it. -/
theorem munchString_of_slice (hslice : (munchString rest).slice = '"' :: body)
    (hopen : (munchString rest).rest = [] → behind = []) :
    munchString (body ++ behind) = { munchString rest with rest := behind } := by
  unfold munchString at hslice hopen ⊢
  cases hsplit : Text.splitQuote rest with
  | none =>
      rw [hsplit] at hslice hopen
      have hbody : rest = body := (List.cons.inj hslice).2
      have hbehind : behind = [] := hopen rfl
      rw [← hbody, hbehind, List.append_nil, hsplit]
      rfl
  | some found =>
      rw [hsplit] at hslice
      have hbody : found.1 ++ ['"'] = body := (List.cons.inj hslice).2
      rw [← hbody, List.append_assoc, List.singleton_append, Text.splitQuote_behind hsplit]

/-- A run of characters ends where something else follows. -/
theorem munchRun_of_slice {kindOf : List Char → Kind} {p : Char → Bool}
    (hslice : (munchRun kindOf p c rest).slice = c :: body)
    (hbehind : ∀ d ∈ behind.head?, p d = false) :
    munchRun kindOf p c (body ++ behind) = { munchRun kindOf p c rest with rest := behind } := by
  have hbody : rest.takeWhile p = body := (List.cons.inj hslice).2
  have hrun : ∀ d ∈ body, p d = true := by
    rw [← hbody]
    exact List.all_eq_true.mp List.all_takeWhile
  rw [munchRun_append hrun hbehind, ← hbody]
  rfl

/-- A token is decided by its own slice. It is read from the slice with
    anything behind it that starts with a blank, or with nothing, which is the
    only choice if the slice went up to the end of its source. -/
theorem munch_of_slice (hslice : (munch c rest).slice = c :: body)
    (hbehind : ∀ d ∈ behind.head?, Text.isSeparator d = true)
    (hopen : (munch c rest).rest = [] → behind = []) :
    munch c (body ++ behind) = { munch c rest with rest := behind } := by
  have hends : ∀ d ∈ behind.head?, d.isDigit = false ∧ isNameRest d = false ∧ d ≠ '=' :=
    fun d hd => separator_ends_run (hbehind d hd)
  have hequals : behind.head? ≠ some '=' := fun h => (hends '=' h).2.2 rfl
  -- Which class the token belongs to is asked of its first character alone.
  unfold munch at hslice hopen ⊢
  split
  · rename_i kind hsign
    rw [hsign] at hslice
    have hbody : [] = body := (List.cons.inj hslice).2
    rw [← hbody]
    rfl
  rename_i hsign
  rw [hsign] at hslice hopen
  simp only at hslice hopen
  by_cases hassign : c = '='
  · rw [if_pos hassign] at hslice
    rw [if_pos hassign, if_pos hassign]
    exact munchSign_of_slice hslice hequals
  rw [if_neg hassign] at hslice hopen
  rw [if_neg hassign, if_neg hassign]
  by_cases hbang : c = '!'
  · rw [if_pos hbang] at hslice
    rw [if_pos hbang, if_pos hbang]
    exact munchSign_of_slice hslice hequals
  rw [if_neg hbang] at hslice hopen
  rw [if_neg hbang, if_neg hbang]
  by_cases hquote : c = '"'
  · rw [if_pos hquote] at hslice hopen
    rw [if_pos hquote, if_pos hquote]
    exact munchString_of_slice (hquote ▸ hslice) hopen
  rw [if_neg hquote] at hslice
  rw [if_neg hquote, if_neg hquote]
  by_cases hdigit : c.isDigit = true
  · rw [if_pos hdigit] at hslice
    rw [if_pos hdigit, if_pos hdigit]
    exact munchRun_of_slice hslice fun d hd => (hends d hd).1
  rw [if_neg hdigit] at hslice
  rw [if_neg hdigit, if_neg hdigit]
  by_cases hname : isNameStart c = true
  · rw [if_pos hname] at hslice
    rw [if_pos hname, if_pos hname]
    exact munchRun_of_slice hslice fun d hd => (hends d hd).2.1
  · rw [if_neg hname] at hslice
    rw [if_neg hname, if_neg hname]
    have hbody : [] = body := (List.cons.inj hslice).2
    rw [← hbody]
    rfl

/-- The first token of a text stands behind the blanks in front of it. -/
theorem tokensAt_char {blanks : List Char} (hblanks : ∀ c ∈ blanks, Text.isSeparator c = true)
    (hc : Text.isSeparator c = false) (k : Nat) (rest : List Char) :
    tokensAt k (blanks ++ c :: rest) =
      ⟨(munch c rest).kind, String.ofList (munch c rest).literal, ⟨k + byteLength blanks,
          k + byteLength blanks + byteLength (munch c rest).slice⟩⟩ ::
        tokensAt (k + byteLength blanks + byteLength (munch c rest).slice)
          (munch c rest).rest := by
  have hnext := next_char hblanks hc rest k false
  have hfinish : (Lexer.mk (blanks ++ c :: rest) k false).next.1.kind ≠ .finish := by
    rw [hnext]
    exact munch_kind_ne_finish c rest
  unfold tokensAt
  rw [readToEnd, dif_neg hfinish]
  simp only [hnext]

/-- Blanks in front of a text move its tokens and do nothing else. -/
theorem tokensAt_blanks {blanks : List Char} (hblanks : ∀ c ∈ blanks, Text.isSeparator c = true)
    (k : Nat) (text : List Char) :
    tokensAt k (blanks ++ text) = tokensAt (k + byteLength blanks) text := by
  induction blanks generalizing k with
  | nil => rfl
  | cons c blanks ih =>
      rcases List.forall_mem_cons.mp hblanks with ⟨hc, hblanks⟩
      rw [List.cons_append, tokensAt_separator hc, ih hblanks, Nat.add_assoc]
      rfl

/-- The slices of tokens one behind the other, each with another text behind it
    as long as there are any. -/
def laid (source : String) : List Token → List String → String
  | [], _ => ""
  | t :: ts, gaps => t.span.text source ++ gaps.headD "" ++ laid source ts gaps.tail

/-- The tokens where their slices stand then, if the first of them starts at
    the given byte. -/
def placed (source : String) (k : Nat) : List Token → List String → List Token
  | [], _ => []
  | t :: ts, gaps =>
    let stop := k + (t.span.text source).utf8ByteSize
    { t with span := ⟨k, stop⟩ } ::
      placed source (stop + (gaps.headD "").utf8ByteSize) ts gaps.tail

/-- A source with other blanks: the given ones in front of its first token and
    between any two, and none behind the last one. -/
def respaced (source front : String) (gaps : List String) : String :=
  front ++ laid source (read source).tokens gaps

/-- Behind a slice there is a blank, or there is nothing because it is the last
    one. -/
theorem laid_behind (source : String) {ts : List Token} {gaps : List String}
    (hlength : gaps.length = ts.length) (hgaps : ∀ g ∈ gaps, g ≠ "" ∧ Text.Separates g) :
    Text.Separates (gaps.headD "") ∧
      (∀ c ∈ (gaps.headD "" ++ laid source ts gaps.tail).toList.head?,
        Text.isSeparator c = true) ∧
      (ts = [] → gaps.headD "" ++ laid source ts gaps.tail = "") := by
  cases gaps with
  | nil =>
      obtain rfl : ts = [] := List.length_eq_zero_iff.mp hlength.symm
      refine ⟨fun c hc => ?_, fun c hc => ?_, fun _ => rfl⟩
      · rw [List.headD_nil, String.toList_empty] at hc
        exact absurd hc List.not_mem_nil
      · rw [List.headD_nil, laid, String.append_empty, String.toList_empty, List.head?_nil] at hc
        exact absurd hc (Option.not_mem_none c)
  | cons g gaps =>
      rcases hgaps g List.mem_cons_self with ⟨hne, hblank⟩
      refine ⟨hblank, fun c hc => ?_, fun hts => ?_⟩
      · -- A gap is not empty, so what stands behind the slice starts with it.
        obtain ⟨d, tail, hg⟩ : ∃ d tail, g.toList = d :: tail :=
          List.exists_cons_of_ne_nil fun hnil => hne (String.toList_eq_nil_iff.mp hnil)
        rw [List.headD_cons, String.toList_append, hg, List.cons_append, List.head?_cons,
          Option.mem_some_iff] at hc
        rw [← hc]
        exact hblank d (hg ▸ List.mem_cons_self)
      · rw [hts] at hlength
        exact absurd hlength (Nat.succ_ne_zero _)

/-- What one call of `next` cuts off, and the slice that its span marks. -/
theorem At.next_slice (h : At source lx) (hend : lx.next.1.kind ≠ .finish) :
    ∃ c rest, Text.isSeparator c = false ∧ lx.next.1.kind = (munch c rest).kind ∧
      lx.next.1.literal = String.ofList (munch c rest).literal ∧
      lx.next.1.span.text source = String.ofList (munch c rest).slice ∧
      lx.next.2.rest = (munch c rest).rest ∧ At source lx.next.2 := by
  rcases h.split with ⟨front, blanks, -, -, ⟨-, hnext⟩ | ⟨c, rest, hc, htoken, hnext⟩⟩
  · rw [hnext] at hend
    exact absurd rfl hend
  · refine ⟨c, rest, hc, ?_⟩
    rw [hnext]
    exact ⟨rfl, rfl, Span.text_of_split htoken, rfl, _, htoken, rfl⟩

/-- The slice of a token starts with the character that it was told by. -/
theorem exists_slice (c : Char) (rest : List Char) :
    ∃ body, (munch c rest).slice = c :: body := by
  have happend := munch_slice_append_rest c rest
  cases hslice : (munch c rest).slice with
  | nil => exact absurd hslice (munch_slice_ne_nil c rest)
  | cons d body =>
      rw [hslice, List.cons_append] at happend
      exact ⟨body, by rw [(List.cons.inj happend).1]⟩

/-- A reader with nothing left to read yields no more tokens. -/
theorem readToEnd_nil (h : lx.rest = []) : lx.readToEnd.tokens = [] := by
  have hend : lx.next.1.kind = .finish := by
    unfold next
    rw [h]
    rfl
  rw [readToEnd, dif_pos hend]

/-- The tokens that are left are read from their slices as well, whatever
    blanks stand between these. -/
theorem tokensAt_laid (h : At source lx) (k : Nat) {gaps : List String}
    (hlength : gaps.length = lx.readToEnd.tokens.length - 1)
    (hgaps : ∀ g ∈ gaps, g ≠ "" ∧ Text.Separates g) :
    tokensAt k (laid source lx.readToEnd.tokens gaps).toList
      = placed source k lx.readToEnd.tokens gaps := by
  fun_induction readToEnd lx generalizing k gaps with
  | case1 lx hend => exact tokensAt_nil k
  | case2 lx hend behind ih =>
      rcases h.next_slice hend with ⟨c, rest, hc, hkind, hliteral, hslice, hrest, hat⟩
      rcases exists_slice c rest with ⟨body, hbody⟩
      have hcount : gaps.length = behind.tokens.length := hlength
      rcases laid_behind source hcount hgaps with ⟨hgap, hblank, hlast⟩
      have hopen : (munch c rest).rest = [] →
          (gaps.headD "" ++ laid source behind.tokens gaps.tail).toList = [] := by
        intro hnil
        rw [hlast (readToEnd_nil (hrest.trans hnil)), String.toList_empty]
      have hmunch := munch_of_slice hbody hblank hopen
      have htext : (laid source (lx.next.1 :: behind.tokens) gaps).toList
          = c :: (body ++ (gaps.headD "" ++ laid source behind.tokens gaps.tail).toList) := by
        rw [laid, hslice, hbody]
        simp only [String.toList_append, String.toList_ofList, List.cons_append, List.append_assoc]
      have hnone : ∀ d ∈ ([] : List Char), Text.isSeparator d = true := fun _ hd =>
        absurd hd List.not_mem_nil
      have hfirst := tokensAt_char hnone hc k
        (body ++ (gaps.headD "" ++ laid source behind.tokens gaps.tail).toList)
      have htail : gaps.tail.length = behind.tokens.length - 1 := by
        rw [List.length_tail, hlength]
        rfl
      have hstop : byteLength (munch c rest).slice
          = (lx.next.1.span.text source).utf8ByteSize := by
        rw [hslice, byteLength_eq]
      rw [htext]
      calc tokensAt k (c :: (body ++ (gaps.headD "" ++ laid source behind.tokens gaps.tail).toList))
          = ⟨lx.next.1.kind, lx.next.1.literal, ⟨k, k + byteLength (munch c rest).slice⟩⟩ ::
            tokensAt (k + byteLength (munch c rest).slice)
              ((gaps.headD "").toList ++ (laid source behind.tokens gaps.tail).toList) := by
            rw [List.nil_append, hmunch] at hfirst
            rw [hkind, hliteral, ← String.toList_append]
            exact hfirst
        _ = ⟨lx.next.1.kind, lx.next.1.literal, ⟨k, k + byteLength (munch c rest).slice⟩⟩ ::
            placed source
              (k + byteLength (munch c rest).slice + byteLength (gaps.headD "").toList)
              behind.tokens gaps.tail := by
            rw [tokensAt_blanks hgap]
            exact congrArg _ (ih hat _ htail fun g hg => hgaps g (List.mem_of_mem_tail hg))
        _ = placed source k (lx.next.1 :: behind.tokens) gaps := by
            rw [placed, hstop, utf8ByteSize_eq (gaps.headD "")]

/-- Where the tokens stand then, their spans mark the same slices. -/
theorem placed_slices (source : String) {text : String} {front : List Char} {ts : List Token}
    {gaps : List String} (h : text.toList = front ++ (laid source ts gaps).toList) :
    List.Forall₂ (fun t t' : Token => t'.kind = t.kind ∧ t'.literal = t.literal ∧
      t'.span.text text = t.span.text source) ts (placed source (byteLength front) ts gaps) := by
  induction ts generalizing front gaps with
  | nil => exact .nil
  | cons t ts ih =>
      have hsplit : text.toList = front ++ (t.span.text source).toList
          ++ ((gaps.headD "").toList ++ (laid source ts gaps.tail).toList) := by
        rw [h, laid]
        simp only [String.toList_append, List.append_assoc]
      rw [placed, utf8ByteSize_eq, utf8ByteSize_eq, ← byteLength_append, ← byteLength_append]
      refine .cons ⟨rfl, rfl, ?_⟩ (ih ?_)
      · rw [Span.text_of_split hsplit, String.ofList_toList]
      · rw [hsplit, List.append_assoc _ (gaps.headD "").toList]

/-- Blanks between tokens do nothing but separate them. Take the slices of the
    tokens of a source, in order, and put any blanks in front of the first one
    and any other blanks, at least one at a time, between each two of them. From
    that text the same tokens are read, with the kinds and literals that they
    had, and each has the span of its slice; then comes the end of input. -/
theorem read_respaced (source : String) {front : String} {gaps : List String}
    (hfront : Text.Separates front)
    (hlength : gaps.length = (read source).tokens.length - 1)
    (hgaps : ∀ g ∈ gaps, g ≠ "" ∧ Text.Separates g) :
    (read (respaced source front gaps)).tokens
      = placed source front.utf8ByteSize (read source).tokens gaps ∧
    List.Forall₂ (fun t t' : Token => t'.kind = t.kind ∧ t'.literal = t.literal ∧
        t'.span.text (respaced source front gaps) = t.span.text source)
      (read source).tokens (read (respaced source front gaps)).tokens ∧
    ∀ k, ((ofString (respaced source front gaps)).afterAsking k).next?.map Prod.fst
      = ((read (respaced source front gaps)).tokens ++
        [⟨.finish, "", ⟨(respaced source front gaps).utf8ByteSize,
          (respaced source front gaps).utf8ByteSize⟩⟩])[k]? := by
  have htext : (respaced source front gaps).toList
      = front.toList ++ (laid source (read source).tokens gaps).toList := String.toList_append
  have htokens : (read (respaced source front gaps)).tokens
      = placed source front.utf8ByteSize (read source).tokens gaps := by
    have hlaid := tokensAt_laid (at_ofString source) (byteLength front.toList) hlength hgaps
    calc (read (respaced source front gaps)).tokens
        = tokensAt 0 (front.toList ++ (laid source (read source).tokens gaps).toList) := by
          rw [← htext]
          rfl
      _ = tokensAt (0 + byteLength front.toList)
            (laid source (read source).tokens gaps).toList := tokensAt_blanks hfront 0 _
      _ = placed source front.utf8ByteSize (read source).tokens gaps := by
          rw [Nat.zero_add, utf8ByteSize_eq]
          exact hlaid
  refine ⟨htokens, ?_, (at_ofString _).afterAsking_next? rfl⟩
  rw [htokens, utf8ByteSize_eq front]
  exact placed_slices source htext

/-- A source in which no two tokens have a blank between them. One of them has
    a blank inside, and the last one is a string that is never closed. -/
def packedSource : String :=
  "if1==!=x!\"a\\\" b\"é\"c "

/-- A blank of each kind, and some pairs. -/
def packedGaps : List String :=
  [" ", "\t", "\r\n", "\x0c", "  ", "\n", " \t"]

theorem read_respaced_packedSource :
    Text.Separates "\n " ∧ packedGaps.length = (read packedSource).tokens.length - 1 ∧
      (∀ g ∈ packedGaps, g ≠ "" ∧ Text.Separates g) ∧
      respaced packedSource "\n " packedGaps
        = "\n if1 ==\t!=\r\nx\x0c!  \"a\\\" b\"\né \t\"c " ∧
      (read (respaced packedSource "\n " packedGaps)).tokens =
        [⟨.identifier, "if1", ⟨2, 5⟩⟩, ⟨.equal, "==", ⟨6, 8⟩⟩, ⟨.notEqual, "!=", ⟨9, 11⟩⟩,
          ⟨.identifier, "x", ⟨13, 14⟩⟩, ⟨.bang, "!", ⟨15, 16⟩⟩, ⟨.string, "a\" b", ⟨18, 25⟩⟩,
          ⟨.illegal, "é", ⟨26, 28⟩⟩, ⟨.illegal, "\"c ", ⟨30, 33⟩⟩] := by
  have hfront : Text.Separates "\n " := by decide
  have hlength : packedGaps.length = (read packedSource).tokens.length - 1 := by cbv
  have hgaps : ∀ g ∈ packedGaps, g ≠ "" ∧ Text.Separates g := by decide
  have hplaced := (read_respaced packedSource hfront hlength hgaps).1
  exact ⟨hfront, hlength, hgaps, by cbv, hplaced.trans (by cbv)⟩

end Lexer

end Monkey
