import Monkey.Proofs.Lexing.Maximal

/-!
# Strings Byte by Byte

The contents of a string, read without knowing what a character is.

A string can be read one byte at a time. The reader stops at a quote, takes a
backslash together with the byte behind it, and copies every other byte into a
buffer (`Text.collect`). In doing so it may tear a character apart: the first
byte of a character behind a backslash is copied together with the backslash,
and its other bytes are copied later, as if each was a character of its own.

What is in the buffer in the end is a text all the same, and it is the text that
a reader of characters finds. All bytes of a character outside of ASCII are
above those of ASCII, so none of them is a quote or a backslash, and whichever
way they are taken, they are copied, one behind the other
(`Text.collect_high`). A character of ASCII is one byte, and then the two readers
ask the same questions. So the buffer can be decoded without a loss, although
the decoder would put in replacement characters if it had to.

Which text is meant by what is between the quotes is said a second time, by
rules that read nothing (`Text.Denotes`).

## Main definitions

* `Text.collect`: A reader of the contents of a string, byte by byte.
* `Text.decode`: The text of bytes, with replacements.
* `Text.Denotes`: What is meant by a text between quotes.

## Theorems

* `Text.collect_high`: Bytes above ASCII are copied.
* `Text.collect_encode`: Reading bytes is reading characters.
* `Text.decode_encode`, `Text.encode_decode_iff`: Nothing is replaced in what
  encodes a text, and in nothing else.
* `Text.denotes_iff`: The rules have one result.
* `Lexer.strings_bytewise`: The strings of a source.
-/

namespace Monkey

namespace Text

/-- What a backslash and the byte behind it stand for. The bytes of a quote, a
    backslash and three letters have a meaning, and all others are kept. -/
def escapedByte : UInt8 → List UInt8
  | 0x22 => [0x22]
  | 0x5c => [0x5c]
  | 0x6e => [0x0a]
  | 0x72 => [0x0d]
  | 0x74 => [0x09]
  | b => [0x5c, b]

/-- Reads on in a string, behind what the buffer was collected from. Yields all
    that is collected up to the closing quote and the bytes behind that quote,
    if there is one. -/
def collect (buffer : List UInt8) : List UInt8 → Option (List UInt8 × List UInt8)
  | [] => none
  | 0x22 :: rest => some (buffer, rest)
  | [0x5c] => none
  | 0x5c :: b :: rest => collect (buffer ++ escapedByte b) rest
  | b :: rest => collect (buffer ++ [b]) rest

/-- Whether a byte goes on with a character of three or four bytes that another
    byte has begun. Some second bytes are left out: with them, the character could
    be written in fewer bytes, or it would be none. -/
def goesOn (first second : UInt8) : Bool :=
  match first with
  | 0xe0 => 0xa0 ≤ second && second ≤ 0xbf
  | 0xed => 0x80 ≤ second && second ≤ 0x9f
  | 0xf0 => 0x90 ≤ second && second ≤ 0xbf
  | 0xf4 => 0x80 ≤ second && second ≤ 0x8f
  | _ => 0xe1 ≤ first && first ≤ 0xf3 && 0x80 ≤ second && second ≤ 0xbf

/-- How many bytes are replaced together in front of bytes that no character
    starts with: the longest part of a character, or else a single byte. -/
def damage : List UInt8 → Nat
  | first :: second :: third :: _ =>
    if goesOn first second then
      if 0xf0 ≤ first && 0x80 ≤ third && third ≤ 0xbf then 3 else 2
    else 1
  | [first, second] => if goesOn first second then 2 else 1
  | _ => 1

/-- The text that bytes are the encoding of. What does not belong to the encoding
    of any character is replaced. -/
def decode (bytes : List UInt8) : List Char :=
  match bytes with
  | [] => []
  | b :: rest =>
    match (b :: rest).toByteArray.utf8DecodeChar? 0 with
    | some c => c :: decode (rest.drop (c.utf8Size - 1))
    | none => '\ufffd' :: decode (rest.drop (damage (b :: rest) - 1))
termination_by bytes.length
decreasing_by all_goals
  rw [List.length_drop, List.length_cons]
  exact Nat.lt_succ_of_le (Nat.sub_le _ _)

variable {text body behind : List Char} {c : Char} {buffer : List UInt8}

/-- A character of ASCII is encoded by the byte with its number. -/
theorem encode_ascii (h : c.toNat < 0x80) : String.utf8EncodeChar c = [UInt8.ofNat c.toNat] :=
  if_pos (Nat.le_of_lt_succ h)

/-- All bytes of another character are above those of ASCII. -/
theorem encode_high (h : ¬c.toNat < 0x80) : ∀ b ∈ String.utf8EncodeChar c, 0x80 ≤ b := by
  have hbyte : ∀ n : Nat, 0x80 ≤ n → n < 0x100 → 0x80 ≤ UInt8.ofNat n := by
    intro n hlow hhigh
    rw [UInt8.le_iff_toNat_le, UInt8.toNat_ofNat_of_lt' hhigh]
    exact hlow
  have hval : ¬c.val.toNat ≤ 0x7f := fun hle => h (Nat.lt_succ_of_le hle)
  unfold String.utf8EncodeChar
  simp only [if_neg hval]
  -- The first byte tells how many there are, and each other one has six bits of
  -- the number.
  split
  · simp only [List.forall_mem_cons, List.not_mem_nil, false_implies, implies_true, and_true]
    exact ⟨hbyte _ (by omega) (by omega), hbyte _ (by omega) (by omega)⟩
  · split
    · simp only [List.forall_mem_cons, List.not_mem_nil, false_implies, implies_true, and_true]
      exact ⟨hbyte _ (by omega) (by omega), hbyte _ (by omega) (by omega),
        hbyte _ (by omega) (by omega)⟩
    · simp only [List.forall_mem_cons, List.not_mem_nil, false_implies, implies_true, and_true]
      exact ⟨hbyte _ (by omega) (by omega), hbyte _ (by omega) (by omega),
        hbyte _ (by omega) (by omega), hbyte _ (by omega) (by omega)⟩

theorem collect_other {b : UInt8} (hquote : b ≠ 0x22) (hpair : b ≠ 0x5c) (rest : List UInt8) :
    collect buffer (b :: rest) = collect (buffer ++ [b]) rest := by
  rw [collect]
  · exact hquote
  · exact fun h _ => hpair h
  · exact fun d tail h _ => hpair h

/-- Bytes above those of ASCII are copied, whatever they are. -/
theorem collect_high {high : List UInt8} (h : ∀ b ∈ high, 0x80 ≤ b) (rest : List UInt8) :
    collect buffer (high ++ rest) = collect (buffer ++ high) rest := by
  induction high generalizing buffer with
  | nil => rw [List.nil_append, List.append_nil]
  | cons b high ih =>
      rcases List.forall_mem_cons.mp h with ⟨hb, hhigh⟩
      have hquote : b ≠ 0x22 := fun heq => absurd (heq ▸ hb) (by decide)
      have hpair : b ≠ 0x5c := fun heq => absurd (heq ▸ hb) (by decide)
      rw [List.cons_append, collect_other hquote hpair, ih hhigh, List.append_assoc,
        List.singleton_append]

/-- A character that is neither a quote nor a backslash is copied. -/
theorem collect_char (hquote : c ≠ '"') (hpair : c ≠ '\\') (rest : List UInt8) :
    collect buffer (String.utf8EncodeChar c ++ rest)
      = collect (buffer ++ String.utf8EncodeChar c) rest := by
  by_cases hascii : c.toNat < 0x80
  · have hne : ∀ d : Char, d.toNat < 0x80 → c ≠ d →
        UInt8.ofNat c.toNat ≠ UInt8.ofNat d.toNat := by
      intro d hd hcd heq
      have hnat := congrArg UInt8.toNat heq
      rw [UInt8.toNat_ofNat_of_lt' (Nat.lt_trans hascii (by decide)),
        UInt8.toNat_ofNat_of_lt' (Nat.lt_trans hd (by decide))] at hnat
      exact hcd (Char.toNat_inj.mp hnat)
    rw [encode_ascii hascii, List.singleton_append,
      collect_other (hne '"' (by decide) hquote) (hne '\\' (by decide) hpair)]
  · exact collect_high (encode_high hascii) rest

/-- Only five characters have a meaning behind a backslash. -/
theorem unescapePair_eq_self (hc : c ∉ ['"', '\\', 'n', 'r', 't']) :
    unescapePair c = ['\\', c] := by
  simp only [List.mem_cons, List.not_mem_nil, or_false, not_or] at hc
  obtain ⟨hquote, hpair, hn, hr, ht⟩ := hc
  unfold unescapePair
  split <;> first | rfl | contradiction

/-- A byte of ASCII behind a backslash means what its character means there. -/
theorem escapedByte_ascii (h : c.toNat < 0x80) :
    escapedByte (UInt8.ofNat c.toNat) = encode (unescapePair c) := by
  have hall : ∀ n < 0x80, escapedByte (UInt8.ofNat n) = encode (unescapePair (Char.ofNat n)) := by
    decide +kernel
  have hc := hall c.toNat h
  rwa [Char.ofNat_toNat] at hc

/-- A byte above ASCII is kept together with the backslash. -/
theorem escapedByte_high {b : UInt8} (h : 0x80 ≤ b) : escapedByte b = [0x5c, b] := by
  unfold escapedByte
  split <;> first | rfl | exact absurd h (by decide)

/-- A backslash is taken together with the character behind it. If that has
    several bytes, only its first one is taken with the backslash, but the other
    ones follow. -/
theorem collect_pair (c : Char) (rest : List UInt8) :
    collect buffer (0x5c :: (String.utf8EncodeChar c ++ rest))
      = collect (buffer ++ encode (unescapePair c)) rest := by
  by_cases hascii : c.toNat < 0x80
  · rw [encode_ascii hascii, List.singleton_append, collect, escapedByte_ascii hascii]
  · have hhigh := encode_high hascii
    obtain ⟨b, bs, hbytes⟩ : ∃ b bs, String.utf8EncodeChar c = b :: bs :=
      List.exists_cons_of_ne_nil String.utf8EncodeChar_ne_nil
    rw [hbytes] at hhigh
    rcases List.forall_mem_cons.mp hhigh with ⟨hb, hbs⟩
    have hfive : ∀ d ∈ ['"', '\\', 'n', 'r', 't'], d.toNat < 0x80 := by simp
    have hkept : unescapePair c = ['\\', c] :=
      unescapePair_eq_self fun hmem => hascii (hfive c hmem)
    have hencode : encode (unescapePair c) = 0x5c :: b :: bs := by
      rw [hkept, encode_cons, encode_cons, hbytes]
      exact congrArg (0x5c :: ·) (List.append_nil _)
    rw [hbytes, List.cons_append, collect, escapedByte_high hb, collect_high hbs, hencode,
      List.append_assoc]
    rfl

/-- Reading the bytes of a text is reading its characters. There is a closing
    quote for the one reader if there is one for the other, what is collected is
    the encoding of the contents, and the same is left. -/
theorem collect_encode (buffer : List UInt8) (text : List Char) :
    collect buffer (encode text) = (splitQuote text).map fun found =>
      (buffer ++ encode (unescapeChars found.1), encode found.2) := by
  -- Along the calls of the reader of characters: between two of them there is no
  -- half of a character in the buffer.
  fun_induction splitQuote text generalizing buffer with
  | case1 rest =>
      change some (buffer, encode rest) = some (buffer ++ [], encode rest)
      rw [List.append_nil]
  | case2 c rest ih =>
      have hbytes : encode ('\\' :: c :: rest) = 0x5c :: (String.utf8EncodeChar c ++ encode rest) :=
        congrArg (0x5c :: ·) (encode_cons c rest)
      rw [hbytes, collect_pair, ih, Option.map_map]
      refine congrArg (Option.map · (splitQuote rest)) (funext fun found => ?_)
      simp only [Function.comp_apply, unescapeChars, encode_append, List.append_assoc]
  | case3 c rest hquote hpair ih =>
      by_cases hc : c = '\\'
      · -- There is nothing behind the backslash, so both readers miss the quote.
        cases rest with
        | nil => exact hc ▸ rfl
        | cons d tail => exact absurd rfl (hpair d tail hc)
      · rw [encode_cons, collect_char hquote hc, ih, Option.map_map]
        refine congrArg (Option.map · (splitQuote rest)) (funext fun found => ?_)
        have hplain : unescapeChars (c :: found.1) = c :: unescapeChars found.1 := by
          rw [unescapeChars]
          exact fun _ _ h _ => hc h
        simp only [Function.comp_apply, hplain, encode_cons, List.append_assoc]
  | case4 => rfl

/-- Nothing is replaced in bytes that encode a text. -/
theorem decode_encode (text : List Char) : decode (encode text) = text := by
  induction text with
  | nil => rw [encode, List.flatMap_nil, decode]
  | cons c text ih =>
      have hfirst : (encode (c :: text)).toByteArray.utf8DecodeChar? 0 = some c :=
        List.utf8DecodeChar?_utf8Encode_cons
      obtain ⟨b, bs, hbytes⟩ : ∃ b bs, String.utf8EncodeChar c = b :: bs :=
        List.exists_cons_of_ne_nil String.utf8EncodeChar_ne_nil
      -- One byte was taken by the match already.
      have hlength : c.utf8Size - 1 = bs.length := by
        rw [← String.length_utf8EncodeChar, hbytes, List.length_cons, Nat.add_sub_cancel]
      rw [encode_cons, hbytes, List.cons_append] at hfirst ⊢
      rw [decode, hfirst]
      simp only
      rw [hlength, List.drop_left, ih]

/-- There is something replaced unless the bytes are the encoding of a text. -/
theorem encode_decode_iff {bytes : List UInt8} :
    encode (decode bytes) = bytes ↔ bytes.toByteArray.IsValidUTF8 := by
  constructor
  · intro h
    rw [← h]
    exact ByteArray.isValidUTF8_utf8Encode
  · rintro ⟨text, htext⟩
    have hbytes : bytes = encode text := by
      have hlist := congrArg (fun array => array.data.toList) htext
      simpa only [encode, List.utf8Encode, List.data_toByteArray] using hlist
    rw [hbytes, decode_encode]

/-- The first bytes of a character are replaced together. -/
example : decode [0x48, 0xf0, 0x90, 0x80, 0x57] = ['H', '\ufffd', 'W'] := by cbv

/-- What is meant by a text between quotes. Five pairs that start with a
    backslash mean a character, each other pair means itself, and so does each
    character that is in no pair. -/
inductive Denotes : List Char → List Char → Prop where
  | nil : Denotes [] []
  | quote {text contents : List Char} (h : Denotes text contents) :
    Denotes ('\\' :: '"' :: text) ('"' :: contents)
  | backslash {text contents : List Char} (h : Denotes text contents) :
    Denotes ('\\' :: '\\' :: text) ('\\' :: contents)
  | newline {text contents : List Char} (h : Denotes text contents) :
    Denotes ('\\' :: 'n' :: text) ('\n' :: contents)
  | carriageReturn {text contents : List Char} (h : Denotes text contents) :
    Denotes ('\\' :: 'r' :: text) ('\r' :: contents)
  | tab {text contents : List Char} (h : Denotes text contents) :
    Denotes ('\\' :: 't' :: text) ('\t' :: contents)
  | kept {c : Char} (hc : c ∉ ['"', '\\', 'n', 'r', 't']) {text contents : List Char}
    (h : Denotes text contents) : Denotes ('\\' :: c :: text) ('\\' :: c :: contents)
  | plain {c : Char} (hc : c ≠ '\\') {text contents : List Char} (h : Denotes text contents) :
    Denotes (c :: text) (c :: contents)

/-- What a text means, if it means anything, is what is read. -/
theorem Denotes.unescapeChars_eq {contents : List Char} (h : Denotes body contents) :
    unescapeChars body = contents := by
  induction h with
  | nil => rfl
  | quote _ ih | backslash _ ih | newline _ ih | carriageReturn _ ih | tab _ ih =>
      exact congrArg (_ :: ·) ih
  | kept hc _ ih =>
      rw [unescapeChars, unescapePair_eq_self hc, ih]
      rfl
  | plain hc _ ih =>
      rw [unescapeChars, ih]
      exact fun _ _ h _ => hc h

/-- A text without half a pair means what is read. -/
theorem Paired.denotes (h : Paired body) : Denotes body (unescapeChars body) := by
  induction h with
  | nil => exact .nil
  | @pair c text _ ih =>
      rw [unescapeChars]
      by_cases hc : c ∈ ['"', '\\', 'n', 'r', 't']
      · simp only [List.mem_cons, List.not_mem_nil, or_false] at hc
        rcases hc with rfl | rfl | rfl | rfl | rfl
        · exact .quote ih
        · exact .backslash ih
        · exact .newline ih
        · exact .carriageReturn ih
        · exact .tab ih
      · rw [unescapePair_eq_self hc]
        exact .kept hc ih
  | single hc _ ih =>
      rw [unescapeChars]
      · exact .plain hc ih
      · exact fun _ _ h _ => hc h

/-- The rules have one result for a text without half a pair. -/
theorem denotes_iff (h : Paired body) {contents : List Char} :
    Denotes body contents ↔ contents = unescapeChars body :=
  ⟨fun hdenotes => hdenotes.unescapeChars_eq.symm, fun heq => heq ▸ h.denotes⟩

theorem length_encode (text : List Char) : (encode text).length = Lexer.byteLength text := by
  induction text with
  | nil => rfl
  | cons c text ih =>
      rw [encode_cons, List.length_append, String.length_utf8EncodeChar, ih]
      rfl

/-- The bytes behind a text in a source. -/
theorem bytes_drop {source : String} {front rest : List Char} (h : source.toList = front ++ rest) :
    (bytes source).drop (Lexer.byteLength front) = encode rest := by
  rw [bytes_eq, h, encode_append, ← length_encode, List.drop_left]

end Text

namespace Lexer

variable {c : Char} {rest : List Char}

/-- Nothing but a closed string has the kind of one. -/
theorem munch_string (hblank : Text.isSeparator c = false) (h : (munch c rest).kind = .string) :
    ∃ body behind, c = '"' ∧ Text.splitQuote rest = some (body, behind) ∧
      munch c rest = ⟨.string, '"' :: (body ++ ['"']), Text.unescapeChars body, behind⟩ := by
  have hform : Form .string (munch c rest).slice := h ▸ (munch_formed hblank).form
  have hquote : c = '"' := by
    have happend := munch_slice_append_rest c rest
    generalize (munch c rest).slice = slice at hform happend
    cases hform with
    | keyword hk => exact absurd hk (by decide)
    | symbol hk => exact absurd hk (by decide)
    | string _ _ => exact (List.cons.inj happend).1.symm
  subst hquote
  have hmunch : munch '"' rest = munchString rest := rfl
  rw [hmunch, munchString] at h ⊢
  cases hsplit : Text.splitQuote rest with
  | none =>
      rw [hsplit] at h
      cases h
  | some found => exact ⟨found.1, found.2, rfl, rfl, rfl⟩

/-- Strings are read without a loss, be it by characters or by bytes. A token of
    that kind has a quote at each end of its span. A reader that starts with the
    byte behind the first quote and knows nothing about characters stops behind
    the other one; what it has collected is the encoding of a text, so the decoder
    has nothing to replace, and this text is the literal of the token. It is also
    the one text that is meant by the characters between the quotes. -/
theorem strings_bytewise (source : String) : ∀ t ∈ (read source).tokens, t.kind = .string →
    ∃ (front body behind : List Char) (buffer : List UInt8),
      source.toList = front ++ '"' :: (body ++ '"' :: behind) ∧
      t.span = ⟨byteLength front, byteLength front + (byteLength body + 2)⟩ ∧
      Text.collect [] ((Text.bytes source).drop (t.span.start + 1))
        = some (buffer, (Text.bytes source).drop t.span.stop) ∧
      buffer.toByteArray.IsValidUTF8 ∧
      Text.decode buffer = t.literal.toList ∧ Text.bytes t.literal = buffer ∧
      ∀ contents, Text.Denotes body contents ↔ contents = t.literal.toList := by
  intro t ht hkind
  rcases (at_ofString source).cut t ht with ⟨front, c, rest, hblank, hsplit, rfl⟩
  rcases munch_string hblank hkind with ⟨body, behind, rfl, hquote, hmunch⟩
  have hrest : rest = body ++ '"' :: behind := Text.splitQuote_eq_append hquote
  have hsource : source.toList = front ++ '"' :: (body ++ '"' :: behind) := by
    rw [hsplit, List.append_assoc, munch_slice_append_rest, hrest]
  have hstop : byteLength (front ++ '"' :: (body ++ ['"']))
      = byteLength front + (byteLength body + 2) := by
    rw [byteLength_append, ← List.singleton_append, byteLength_append, byteLength_append]
    exact congrArg (byteLength front + ·) (Nat.add_comm 1 (byteLength body + 1))
  have hpaired : Text.Paired body := (Text.splitQuote_bare hquote).1
  -- Both readers are at the same place: behind the first quote, and then behind the other one.
  have hinside : (Text.bytes source).drop (byteLength front + 1) = Text.encode rest := by
    have hopened : source.toList = (front ++ ['"']) ++ rest := by
      rw [hsource, hrest, List.append_assoc, List.singleton_append]
    rw [← Text.bytes_drop hopened, byteLength_append]
    rfl
  have hbehind : (Text.bytes source).drop (byteLength front + (byteLength body + 2))
      = Text.encode behind := by
    have hclosed : source.toList = (front ++ '"' :: (body ++ ['"'])) ++ behind := by
      simp only [hsource, List.append_assoc, List.cons_append, List.nil_append]
    rw [← Text.bytes_drop hclosed, hstop]
  simp only [hmunch, hstop, String.toList_ofList]
  have hdecode := Text.decode_encode (Text.unescapeChars body)
  refine ⟨front, body, behind, Text.encode (Text.unescapeChars body), hsource, rfl, ?_,
    Text.encode_decode_iff.mp (congrArg Text.encode hdecode), hdecode, ?_, fun contents =>
      Text.denotes_iff hpaired⟩
  · rw [hinside, hbehind, Text.collect_encode, hquote]
    rfl
  · rw [Text.bytes_eq, String.toList_ofList]

/-- A source with a string in which characters of two and of three bytes stand
    behind a backslash. -/
def tornSource : String :=
  "x\"\\é\\漢\\n\\\\\\\"😀\"1"

theorem strings_bytewise_tornSource :
    (⟨.string, "\\é\\漢\n\\\"😀", ⟨1, 20⟩⟩ : Token) ∈ (read tornSource).tokens ∧
    Text.collect [] ((Text.bytes tornSource).drop 2)
      = some (Text.bytes "\\é\\漢\n\\\"😀", [0x31]) ∧
    Text.decode (Text.bytes "\\é\\漢\n\\\"😀") = "\\é\\漢\n\\\"😀".toList := by
  have hmem : (⟨.string, "\\é\\漢\n\\\"😀", ⟨1, 20⟩⟩ : Token) ∈ (read tornSource).tokens := by
    have htokens : (read tornSource).tokens = [⟨.identifier, "x", ⟨0, 1⟩⟩,
      ⟨.string, "\\é\\漢\n\\\"😀", ⟨1, 20⟩⟩, ⟨.integer, "1", ⟨20, 21⟩⟩] := by cbv
    rw [htokens]
    decide
  have hlast : (Text.bytes tornSource).drop 20 = [0x31] := by cbv
  rcases strings_bytewise tornSource _ hmem rfl with
    ⟨-, -, -, buffer, -, -, hcollect, -, hdecode, rfl, -⟩
  exact ⟨hmem, hcollect.trans (by rw [hlast]), hdecode⟩

end Lexer

end Monkey
