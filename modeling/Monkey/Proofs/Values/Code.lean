import Monkey.Proofs.Values.Literal

/-!
# The Code Form of Data

Data that are written down and evaluated come back.

There is one exception, and it is the smallest integer. Its code form is a
minus in front of a number that is too large for an integer, and no program
has such a number in its text, since every integer that a derivation consumes
can be read. So a text with one anywhere in it is refused as a whole. To find
it there, what stands in front of it has to be cut off first, and that is why
the values without the smallest integer are needed for those with it: their
code forms are phrases, and a phrase takes none of the text behind it.

## Main definitions

* `InRange`: The integers among some tokens can be read.
* `Illegible`: A text with an integer that cannot be read.
* `Jams`, `Skips`: A text that makes a longer one illegible, or leaves it so.

## Theorems

* `Grammar.Derives.inRange_iff`: The integers of a phrase can be read.
* `Value.code_jams`: The smallest integer makes a code form illegible.
* `Value.parseStrict_code`: Any other code form is the literal of the value.
* `Value.code_comesBack`: Data come back if they can be written down.
-/

namespace Monkey

open Grammar Lexer

/-- The integers among some tokens can be read. -/
def InRange (ts : List Token) : Prop :=
  ∀ t ∈ ts, t.kind = .integer → Text.readInteger? t.literal ≠ none

theorem inRange_cons {t : Token} {ts : List Token} : InRange (t :: ts) ↔
    (t.kind = .integer → Text.readInteger? t.literal ≠ none) ∧ InRange ts :=
  List.forall_mem_cons

/-- A token that is no integer may stand anywhere. -/
theorem inRange_cons_of_ne {t : Token} {ts : List Token} (ht : t.kind ≠ .integer) :
    InRange (t :: ts) ↔ InRange ts := by
  rw [inRange_cons]
  exact and_iff_right fun h => absurd h ht

/-- A phrase has no integer that cannot be read, so there is one in a text with
    the phrase only if there is one behind it. -/
theorem Grammar.Derives.inRange_iff {x : Phrase} {tree : x.Tree} {i o : List Token}
    (h : Derives x tree i o) (hx : ∀ y, x ≠ .list .integer y) : InRange i ↔ InRange o := by
  induction h with
  | int ht hn =>
      rw [inRange_cons, hn]
      exact and_iff_right fun _ => Option.some_ne_none _
  | unary ht _ ih =>
      rw [inRange_cons_of_ne (by rcases ht with ht | ht <;> rw [ht] <;> decide)]
      exact ih nofun
  | @binary tier t _ _ _ _ _ _ ht _ ihl ihr =>
      have hkind : t.kind ≠ .integer := fun hk => by
        rw [hk] at ht
        cases tier <;> exact absurd ht (by decide)
      rw [ihl nofun, inRange_cons_of_ne hkind]
      exact ihr nofun
  -- All other tokens that a rule names are of another kind.
  | _ => simp_all [inRange_cons]

/-- There is an integer in a text that cannot be read, wherever the text
    stands. -/
def Illegible (text : List Char) : Prop :=
  ∀ k, ¬InRange (tokensAt k text)

namespace Illegible

variable {i o : List Char}

theorem behind_token {kind : Kind} {literal : String} (ht : Spells i kind literal o)
    (ho : Illegible o) : Illegible i := by
  intro k hi
  rcases ht k with ⟨t, k', -, -, htokens⟩
  rw [htokens] at hi
  exact ho k' (inRange_cons.mp hi).2

theorem behind_blank (ho : Illegible o) : Illegible (' ' :: o) := by
  intro k hi
  rw [tokensAt_separator (by decide)] at hi
  exact ho _ hi

theorem behind_expr {tier : Tier} {e : Expr} (he : Covers (.expr tier) e i o)
    (ho : Illegible o) : Illegible i := by
  intro k hi
  rcases he k with ⟨k', hderives⟩
  exact ho k' ((hderives.inRange_iff nofun).mp hi)

/-- A number that is too large is illegible. -/
theorem of_digits {n : Nat} (hn : 0x7fffffffffffffff < n) (ho : Apart o) :
    Illegible ((Text.decimal n).toList ++ o) := by
  intro k hi
  rcases spells_decimal n ho k with ⟨t, k', hkind, hliteral, htokens⟩
  rw [htokens] at hi
  refine (inRange_cons.mp hi).1 hkind ?_
  unfold Text.readInteger?
  simp only [hliteral, Text.decimal, String.toList_ofList, Text.readDecimal_toDigits,
    if_neg (Nat.not_le_of_lt hn)]

end Illegible

/-- A text that is illegible whatever comes behind it. -/
def Jams (text : String) : Prop :=
  ∀ rest, Apart rest → Illegible (text.toList ++ rest)

/-- A text behind which something illegible stays illegible. -/
def Skips (text : String) : Prop :=
  ∀ rest, Apart rest → Illegible rest → Illegible (text.toList ++ rest)

theorem Jams.skips {text : String} (h : Jams text) : Skips text :=
  fun rest hrest _ => h rest hrest

/-- A phrase takes none of the text behind it. -/
theorem Printed.skips {tier : Tier} {e : Expr} {text : String} (h : Printed (.expr tier) e text) :
    Skips text :=
  fun rest hrest hillegible => .behind_expr (h rest hrest) hillegible

/-- A list is illegible if one of its texts is, and those in front of it can
    be cut off. -/
theorem jams_commaSeparated {texts : List String} (hskips : ∀ text ∈ texts, Skips text)
    (hjams : ∃ text ∈ texts, Jams text) : Jams (Text.commaSeparated texts) := by
  induction texts with
  | nil =>
      rcases hjams with ⟨text, htext, -⟩
      exact absurd htext List.not_mem_nil
  | cons text texts ih =>
      rcases List.forall_mem_cons.mp hskips with ⟨hskip, hskips⟩
      rcases hjams with ⟨found, hfound, hjam⟩
      cases texts with
      | nil =>
          unfold Text.commaSeparated
          rw [String.intercalate_singleton, ← List.mem_singleton.mp hfound]
          exact hjam
      | cons text' texts =>
          intro rest hrest
          unfold Text.commaSeparated
          rw [String.intercalate_cons_cons, String.toList_append, String.toList_append,
            List.append_assoc, List.append_assoc]
          rcases List.mem_cons.mp hfound with rfl | hfound
          · exact hjam _ (apart_cons _ rfl)
          · -- The comma and the blank are cut off as well.
            have hlater := ih hskips ⟨found, hfound, hjam⟩ rest hrest
            exact hskip _ (apart_cons _ rfl) (.behind_token (spells_sign (c := ',') rfl _)
              hlater.behind_blank)

/-- The text of a pair is illegible if the text of the key is, or that of the
    value. -/
theorem jams_pair {key value : String} (hkey : Skips key) (h : Jams key ∨ Jams value) :
    Jams (key ++ ": " ++ value) := by
  intro rest hrest
  rw [String.toList_append, String.toList_append, List.append_assoc, List.append_assoc]
  rcases h with h | h
  · exact h _ (apart_cons _ rfl)
  · exact hkey _ (apart_cons _ rfl) (.behind_token (spells_sign (c := ':') rfl _)
      (Illegible.behind_blank (h rest hrest)))

theorem skips_pair {key value : String} (hkey : Skips key) (hvalue : Skips value) :
    Skips (key ++ ": " ++ value) := by
  intro rest hrest hillegible
  rw [String.toList_append, String.toList_append, List.append_assoc, List.append_assoc]
  exact hkey _ (apart_cons _ rfl) (.behind_token (spells_sign (c := ':') rfl _)
    (Illegible.behind_blank (hvalue rest hrest hillegible)))

/-- The signs around a list change nothing. -/
theorem Jams.enclosed {text : String} (h : Jams text) {l r : Char} {left right : Kind}
    (hl : sign? l = some left) (hr : sign? r = some right) :
    Jams (String.ofList [l] ++ text ++ String.ofList [r]) := by
  intro rest _
  rw [String.toList_append, String.toList_append, String.toList_ofList, String.toList_ofList,
    List.append_assoc, List.append_assoc]
  have hinner := h (r :: rest) (apart_sign hr rest)
  exact .behind_token (spells_sign hl _) hinner

namespace Value

theorem codes_eq_map (vs : List Value) : codes vs = vs.map code := by
  induction vs with
  | nil => rfl
  | cons v vs ih =>
      rw [codes, ih]
      rfl

theorem slotCodes_eq_map (slots : List (Slot Value)) :
    slotCodes slots = slots.map fun slot => slot.key.code ++ ": " ++ slot.value.code := by
  induction slots with
  | nil => rfl
  | cons slot slots ih =>
      rw [slotCodes, ih]
      rfl

/-- The code form of data is cut off, with the smallest integer or without. -/
theorem code_skips {v : Value} (hv : v.Data) (h : v.HasSmallest → Jams v.code) : Skips v.code := by
  by_cases hsmallest : v.HasSmallest
  · exact (h hsmallest).skips
  · exact (literal_printed hv hsmallest).skips

/-- The smallest integer makes the code form illegible, wherever it occurs. -/
theorem code_jams {v : Value} (hv : v.Data) : v.HasSmallest → Jams v.code := by
  induction hv using Data.induct with
  | bool id b => exact fun h => absurd h not_hasSmallest_bool
  | str id contents => exact fun h => absurd h not_hasSmallest_str
  | int id n =>
      intro h rest hrest
      have habs : Int64.minValue.toInt.natAbs = 0x8000000000000000 := by decide
      have hcode : code (.int id n) = "-" ++ Text.decimal 0x8000000000000000 := by
        rw [hasSmallest_int.mp h]
        change Text.signedDecimal Int64.minValue = _
        rw [Text.signedDecimal, if_pos (by decide), habs]
      -- Behind the minus there is the first number that is too large.
      have hdigits : Illegible ((Text.decimal 0x8000000000000000).toList ++ rest) :=
        .of_digits (by decide) hrest
      rw [hcode, String.toList_append, List.append_assoc]
      exact .behind_token (spells_sign (c := '-') rfl _) hdigits
  | array id elements hdata ih =>
      intro h
      rcases hasSmallest_array.mp h with ⟨v, hv, hsmallest⟩
      have hcodes : Jams (Text.commaSeparated (codes elements)) := by
        rw [codes_eq_map]
        refine jams_commaSeparated (fun text htext => ?_)
          ⟨v.code, List.mem_map_of_mem hv, ih v hv hsmallest⟩
        rcases List.mem_map.mp htext with ⟨w, hw, rfl⟩
        exact code_skips (hdata w hw) (ih w hw)
      exact hcodes.enclosed (l := '[') (r := ']') rfl rfl
  | map id slots _ hkeys hvalues ihkeys ihvalues =>
      intro h
      rcases hasSmallest_map.mp h with ⟨slot, hslot, hsmallest⟩
      have hskips : ∀ slot ∈ slots, Skips slot.key.code := fun slot hslot =>
        code_skips (hkeys slot hslot) (ihkeys slot hslot)
      have hcodes : Jams (Text.commaSeparated (slotCodes slots)) := by
        rw [slotCodes_eq_map]
        refine jams_commaSeparated (fun text htext => ?_)
          ⟨_, List.mem_map_of_mem hslot, jams_pair (hskips slot hslot)
            (hsmallest.imp (ihkeys slot hslot) (ihvalues slot hslot))⟩
        rcases List.mem_map.mp htext with ⟨other, hother, rfl⟩
        exact skips_pair (hskips other hother)
          (code_skips (hvalues other hother) (ihvalues other hother))
      exact hcodes.enclosed (l := '\x7b') (r := '\x7d') rfl rfl

/-- The code form of data without the smallest integer is the literal. -/
theorem parseStrict_code {v : Value} (hv : v.Data) (h : ¬v.HasSmallest) :
    parseStrict v.code = .ok [.expr v.literal] := by
  have hexpr := (literal_printed hv h).loosest [] apart_nil
  have hend : Covers (.statements false) ([] : Block) [] [] := .finish
  rcases Covers.last (.expr hexpr) hend 0 with ⟨k, hderives⟩
  rw [List.append_nil, tokensAt_nil] at hderives
  exact parseStrict_eq_ok hderives

/-- The code form of data is accepted without an error if and only if the
    smallest integer does not occur in the data. Then the program that was
    read, run on its own at any limit, reports a value that differs from the
    one that was written in the numbers of its objects only, and that has the
    same code form. -/
theorem code_comesBack {v : Value} (hv : v.Data) :
    ((∃ program, parseStrict v.code = .ok program) ↔ ¬v.HasSmallest) ∧
    ∀ program, parseStrict v.code = .ok program → ∀ limit, ∃ report after w,
      Store.withRoot.2.run limit Store.withRoot.1 program = some (report, after) ∧
        report.result = some w ∧ w.unnumbered = v.unnumbered ∧ w.code = v.code := by
  have hrefused : ∀ program, parseStrict v.code = .ok program → ¬v.HasSmallest := by
    intro program hparse hsmallest
    have hderives := (parseStrict_eq_ok_iff _ _).mp hparse
    have hillegible := code_jams hv hsmallest [] apart_nil 0
    rw [List.append_nil] at hillegible
    exact hillegible ((hderives.inRange_iff nofun).mpr fun t ht => absurd ht List.not_mem_nil)
  refine ⟨⟨fun ⟨program, hparse⟩ => hrefused program hparse, fun h => ⟨_, parseStrict_code hv h⟩⟩,
    fun program hparse limit => ?_⟩
  -- A text has one program at most, so what was read is the literal.
  have hliteral := parseStrict_code hv (hrefused program hparse)
  rw [hparse] at hliteral
  rw [Except.ok.inj hliteral]
  rcases Store.run_of_gives (literal_gives hv) hv.stops limit Store.withRoot.1 Store.withRoot.2 with
    ⟨report, after, w, hrun, hresult, hw⟩
  refine ⟨report, after, w, hrun, hresult, hw, ?_⟩
  rw [← code_unnumbered, hw, code_unnumbered]

/-- A map with a negative key, and with a key that has to be escaped and that
    leads to an array with the smallest integer but one. -/
def writtenSlots : List (Slot Value) :=
  Slots.insert ⟨⟨.string, Text.digest "\"\n"⟩, .str 3 "\"\n",
      .array 5 [.bool true, .int 6 (-9223372036854775807)]⟩
    (Slots.insert ⟨⟨.integer, (-1 : Int64).toUInt64⟩, .int 4 (-1), .int 7 7⟩ [])

theorem code_comesBack_written :
    (∃ program, parseStrict (code (.map 8 writtenSlots)) = .ok program ∧
      ∃ report after w, Store.withRoot.2.run 1 Store.withRoot.1 program = some (report, after) ∧
        report.result = some w ∧ w.unnumbered = (Value.map 8 writtenSlots).unnumbered) ∧
    ¬∃ program, parseStrict (code (.array 10 [.map 8 writtenSlots, .int 9 Int64.minValue]))
      = .ok program := by
  have hslot : ∀ slot ∈ writtenSlots, slot.value.Data ∧
      ¬(slot.key.HasSmallest ∨ slot.value.HasSmallest) := by
    intro slot hslot
    rcases Slots.mem_insert hslot with rfl | hslot
    · refine ⟨.array 5 fun v hv => ?_, ?_⟩
      · rcases List.mem_pair.mp hv with rfl | rfl
        · exact .bool _ true
        · exact .int 6 _
      · rintro (h | h)
        · exact not_hasSmallest_str h
        · rcases hasSmallest_array.mp h with ⟨v, hv, h⟩
          rcases List.mem_pair.mp hv with rfl | rfl
          · exact not_hasSmallest_bool h
          · exact absurd (hasSmallest_int.mp h) (by decide)
    · rcases Slots.mem_insert hslot with rfl | hslot
      · refine ⟨.int 7 7, ?_⟩
        rintro (h | h) <;> exact absurd (hasSmallest_int.mp h) (by decide)
      · exact absurd hslot List.not_mem_nil
  have hmap : (Value.map 8 writtenSlots).Data :=
    .map 8 (.insert (.insert .nil rfl _) rfl _) fun slot h => (hslot slot h).1
  have harray : (Value.array 10 [.map 8 writtenSlots, .int 9 Int64.minValue]).Data := by
    refine .array 10 fun v hv => ?_
    rcases List.mem_pair.mp hv with rfl | rfl
    · exact hmap
    · exact .int 9 _
  have hsmallest : ¬(Value.map 8 writtenSlots).HasSmallest := fun h => by
    rcases hasSmallest_map.mp h with ⟨slot, hmem, h⟩
    exact (hslot slot hmem).2 h
  rcases code_comesBack hmap with ⟨haccepted, hback⟩
  rcases haccepted.mpr hsmallest with ⟨program, hparse⟩
  rcases hback program hparse 1 with ⟨report, after, w, hrun, hresult, hw, -⟩
  refine ⟨⟨program, hparse, report, after, w, hrun, hresult, hw⟩, fun h => ?_⟩
  exact (code_comesBack harray).1.mp h
    (hasSmallest_array.mpr ⟨_, List.mem_cons_of_mem _ List.mem_cons_self, hasSmallest_int.mpr rfl⟩)

end Value

end Monkey
