import Mathlib.Data.List.Forall2
import Monkey.Proofs.Parsing.Language
import Monkey.Proofs.Printing.Reading
import Monkey.Syntax.Printer

/-!
# Printed Programs are Read Back

A program that is printed and parsed again is the same program.

The printer puts parentheses around every operator expression, so what it
writes for an expression binds as tightly as a call, and it can stand in every
place where an expression may stand. That is the invariant of the induction:
each printed expression derives its tree as an application, whatever text
comes behind it, as long as that text does not go on with a name or a number.
Precedences play no further part. In particular an `if` or a function needs no
parentheses as a callee or as an operand, since the brace that ends it also
ends the phrase.

Not every tree can be read back. A tree may hold names that are keywords or no
names at all, integers with a sign and operators that the grammar does not
have in that place; such a tree has a text, but its text is that of another
tree or of none. `Expr.WellFormed` leaves out these and nothing else.

## Main definitions

* `Lexer.isName`: The texts that are read as an identifier.
* `Expr.WellFormed`, `Stmt.WellFormed`, `Block.WellFormed`: The trees that can
  be read back.
* `Printed`, `PrintedPair`: A text that derives a tree, or the pair of a map,
  whatever comes behind it.

## Theorems

* `Text.readInteger?_signedDecimal`: An integer without a sign is read back.
* `printed_binary` and the like: Composed texts derive composed trees.
* `Expr.printed`, `Stmt.printed`, `Block.printed`: Printed trees are derived.
* `parseStrict_text`: A printed program is read back.
-/

namespace Monkey

open Grammar Lexer

/-- The texts that are read as an identifier: a letter or an underscore, then
    letters, digits and underscores, and not a keyword. -/
def Lexer.isName (name : String) : Bool :=
  match name.toList with
  | [] => false
  | c :: run => isNameStart c && run.all isNameRest && (Kind.ofKeyword? name).isNone

mutual

/-- An expression whose names, integers and operators can all be written in
    the language. -/
def Expr.WellFormed : Expr → Prop
  | .ident name => Lexer.isName name
  | .int value => 0 ≤ value.toInt
  | .str _ => True
  | .bool _ => True
  | .unary op operand => (op = .bang ∨ op = .minus) ∧ operand.WellFormed
  | .binary op left right => op ∈ binaryKinds ∧ left.WellFormed ∧ right.WellFormed
  | .cond test c none => test.WellFormed ∧ Block.WellFormed c
  | .cond test c (some d) => test.WellFormed ∧ Block.WellFormed c ∧ Block.WellFormed d
  | .fn params body => (∀ name ∈ params, Lexer.isName name) ∧ Block.WellFormed body
  | .call callee args => callee.WellFormed ∧ Expr.AllWellFormed args
  | .array elements => Expr.AllWellFormed elements
  | .index base key => base.WellFormed ∧ key.WellFormed
  | .map pairs => Expr.PairsWellFormed pairs

/-- A statement that can be written in the language. -/
def Stmt.WellFormed : Stmt → Prop
  | .bind name value => Lexer.isName name ∧ value.WellFormed
  | .ret value => value.WellFormed
  | .expr value => value.WellFormed

/-- A block of statements that can be written in the language. -/
def Block.WellFormed : List Stmt → Prop
  | [] => True
  | s :: ss => s.WellFormed ∧ Block.WellFormed ss

/-- Expressions that can all be written in the language. -/
def Expr.AllWellFormed : List Expr → Prop
  | [] => True
  | e :: es => e.WellFormed ∧ Expr.AllWellFormed es

/-- Pairs of expressions that can all be written in the language. -/
def Expr.PairsWellFormed : List (Expr × Expr) → Prop
  | [] => True
  | (k, v) :: ps => k.WellFormed ∧ v.WellFormed ∧ Expr.PairsWellFormed ps

end

/-- An integer without a sign is read back. -/
theorem Text.readInteger?_signedDecimal {n : Int64} (h : 0 ≤ n.toInt) :
    Text.readInteger? (Text.signedDecimal n) = some n := by
  -- Without a sign the digits denote the number itself, which fits as it comes from one that did.
  have hle : n.toInt.natAbs ≤ 0x7fffffffffffffff := by
    have hlt := n.toInt_lt
    omega
  have hback : Int64.ofNat n.toInt.natAbs = n := by
    rw [← Int64.toInt_inj, Int64.toInt_ofNat_of_lt (by omega)]
    omega
  have hsign : ¬n.toInt < 0 := by omega
  unfold Text.readInteger? Text.signedDecimal
  rw [if_neg hsign]
  simp only [Text.decimal, String.toList_ofList, Text.readDecimal_toDigits, if_pos hle, hback]

/-- A text derives a tree, and a text behind it that does not go on with a
    name or a number is left over. -/
def Printed (x : Phrase) (tree : x.Tree) (text : String) : Prop :=
  ∀ rest, Apart rest → Covers x tree (text.toList ++ rest) rest

theorem spells_name {name : String} (h : Lexer.isName name) {rest : List Char}
    (hrest : Apart rest) : Spells (name.toList ++ rest) .identifier name rest := by
  unfold Lexer.isName at h
  cases htext : name.toList with
  | nil =>
      rw [htext] at h
      exact absurd h Bool.false_ne_true
  | cons c run =>
      rw [htext] at h
      simp only [Bool.and_eq_true, List.all_eq_true, Option.isNone_iff_eq_none] at h
      have hname : String.ofList (c :: run) = name := by
        rw [← htext, String.ofList_toList]
      have hspells := spells_word h.1.1 h.1.2 hrest
      rw [wordKind, hname, h.2] at hspells
      exact hspells

theorem Printed.lower {tier loose : Tier} {e : Expr} {text : String}
    (h : Printed (.expr tier) e text) (hle : loose.level ≤ tier.level) :
    Printed (.expr loose) e text :=
  fun rest hrest => (h rest hrest).lower hle

/-- What every kind of expression but the calls comes down to. -/
theorem Printed.of_primary {e : Expr} {text : String} (h : Printed (.expr .primary) e text) :
    Printed (.expr .application) e text :=
  h.lower (by decide)

theorem Printed.loosest {tier : Tier} {e : Expr} {text : String}
    (h : Printed (.expr tier) e text) : Printed (.expr .equality) e text :=
  fun rest hrest => (h rest hrest).loosest

/-- An expression of any tier can be an argument or an element. -/
theorem Printed.item {tier : Tier} {e : Expr} {text : String} (h : Printed (.expr tier) e text) :
    Printed (.item .expression) e text :=
  fun rest hrest => .itemExpression (h rest hrest).loosest

theorem printed_ident {name : String} (h : Lexer.isName name) :
    Printed (.expr .primary) (Expr.ident name) name :=
  fun _ hrest => .ident (spells_name h hrest)

/-- The digits of a number are cut off as a whole. -/
theorem spells_decimal (n : Nat) {rest : List Char} (hrest : Apart rest) :
    Spells ((Text.decimal n).toList ++ rest) .integer (Text.decimal n) rest := by
  unfold Text.decimal
  rw [String.toList_ofList]
  have hdigits : ∀ d ∈ Nat.toDigits 10 n, d.isDigit = true :=
    fun d hd => Nat.isDigit_of_mem_toDigits (by decide) (by decide) hd
  cases hrun : Nat.toDigits 10 n with
  | nil => exact absurd hrun Nat.toDigits_ne_nil
  | cons c run =>
      rw [hrun] at hdigits
      exact spells_digits (hdigits c List.mem_cons_self)
        (fun d hd => hdigits d (List.mem_cons_of_mem c hd)) hrest

theorem printed_int {n : Int64} (h : 0 ≤ n.toInt) :
    Printed (.expr .primary) (Expr.int n) (Text.signedDecimal n) := by
  intro rest hrest
  refine .int ?_ (Text.readInteger?_signedDecimal h)
  unfold Text.signedDecimal
  rw [if_neg (by omega)]
  exact spells_decimal _ hrest

theorem printed_str (contents : String) :
    Printed (.expr .primary) (Expr.str contents) (Text.quoted contents) :=
  fun rest _ => .str (spells_quoted contents rest)

theorem printed_bool (b : Bool) : Printed (.expr .primary) (Expr.bool b) (Text.truth b) := by
  intro rest hrest
  cases b with
  | true => exact .truth (spells_keyword (k := .trueWord) (by decide) hrest)
  | false => exact .truth (spells_keyword (k := .falseWord) (by decide) hrest)

/-- No expression starts with an equals sign, so a sign in front of one stays
    as it is. -/
theorem head_ne_equals {tier : Tier} {e : Expr} {i o : List Char}
    (h : Covers (.expr tier) e i o) : i.head? ≠ some '=' := by
  intro hhead
  -- Whatever stands behind it, an equals sign starts one of two tokens, and both are operators.
  obtain ⟨rest, rfl⟩ : ∃ rest, i = '=' :: rest := by
    cases i with
    | nil => exact absurd hhead (by simp only [List.head?_nil, reduceCtorEq, not_false_eq_true])
    | cons c rest => exact ⟨rest, by rw [Option.some.inj hhead]⟩
  have hsign : (munch '=' rest).kind = .assign ∨ (munch '=' rest).kind = .equal := by
    change (munchSign '=' .assign .equal rest).kind = _ ∨ _
    unfold munchSign
    split
    · exact .inr rfl
    · exact .inl rfl
  rcases h 0 with ⟨k', hderives⟩
  rcases spells_munch (c := '=') (by decide) rest 0 with ⟨t, k₁, hkind, -, htokens⟩
  have hstart := hderives.expr_starts
  rw [htokens, ahead_cons, hkind] at hstart
  rcases hsign with h | h <;> rw [h] at hstart <;> exact absurd hstart (by decide)

theorem printed_unary {op : Kind} {e : Expr} {text : String} (hop : op = .bang ∨ op = .minus)
    (he : Printed (.expr .application) e text) :
    Printed (.expr .primary) (Expr.unary op e) ("(" ++ op.name ++ text ++ ")") := by
  intro rest _
  simp only [String.toList_append, List.append_assoc]
  have hinner := he (')' :: rest) (apart_cons rest rfl)
  have hmem : op ∈ operatorKinds := by
    rcases hop with rfl | rfl <;> decide
  have hsign := spells_operator hmem (head_ne_equals hinner)
  have hwhole : Covers (.expr .unary) (Expr.unary op e) _ (')' :: rest) :=
    .unary hsign hop (hinner.lower (by decide))
  exact .grouped (spells_sign (c := '(') rfl _) hwhole.loosest (spells_sign (c := ')') rfl rest)

theorem exists_tier_of_mem {op : Kind} (h : op ∈ binaryKinds) :
    ∃ tier : Tier, op ∈ tier.operators := by
  simp only [binaryKinds, List.mem_cons, List.not_mem_nil, or_false] at h
  rcases h with rfl | rfl | rfl | rfl | rfl | rfl | rfl | rfl
  · exact ⟨.sum, by decide⟩
  · exact ⟨.sum, by decide⟩
  · exact ⟨.product, by decide⟩
  · exact ⟨.product, by decide⟩
  · exact ⟨.comparison, by decide⟩
  · exact ⟨.comparison, by decide⟩
  · exact ⟨.equality, by decide⟩
  · exact ⟨.equality, by decide⟩

theorem printed_binary {op : Kind} {l r : Expr} {left right : String} (hop : op ∈ binaryKinds)
    (hl : Printed (.expr .application) l left) (hr : Printed (.expr .application) r right) :
    Printed (.expr .primary) (Expr.binary op l r)
      ("(" ++ left ++ " " ++ op.name ++ " " ++ right ++ ")") := by
  intro rest _
  simp only [String.toList_append, List.append_assoc]
  rcases exists_tier_of_mem hop with ⟨tier, htier⟩
  have hmem : op ∈ Kind.bang :: binaryKinds := List.mem_cons_of_mem _ hop
  -- Both operands are printed tight enough for any tier that has operators.
  have htight : tier.level ≤ Tier.application.level ∧
      tier.next.level ≤ Tier.application.level := by
    cases tier <;> first | decide | exact absurd htier List.not_mem_nil
  have hleft := hl _ (apart_cons (c := ' ')
    (op.name.toList ++ (' ' :: (right.toList ++ (')' :: rest)))) rfl)
  have hright := hr (')' :: rest) (apart_cons rest rfl)
  have hsign := (spells_operator hmem (blank_ne_equals (right.toList ++ (')' :: rest)))).blank
  have hwhole : Covers (.expr tier) (Expr.binary op l r) _ (')' :: rest) :=
    .binary (hleft.lower htight.1) hsign htier (hright.blank.lower htight.2)
  exact .grouped (spells_sign (c := '(') rfl _) hwhole.loosest (spells_sign (c := ')') rfl rest)

theorem printed_index {base key : Expr} {left inner : String}
    (hbase : Printed (.expr .application) base left)
    (hkey : Printed (.expr .application) key inner) :
    Printed (.expr .primary) (Expr.index base key) ("(" ++ left ++ "[" ++ inner ++ "])") := by
  intro rest _
  simp only [String.toList_append, List.append_assoc]
  have hleft := hbase _ (apart_cons (c := '[') (inner.toList ++ (']' :: ')' :: rest)) rfl)
  have hinner := hkey _ (apart_cons (c := ']') (')' :: rest) rfl)
  have hwhole : Covers (.expr .application) (Expr.index base key) _ (')' :: rest) :=
    .index hleft (spells_sign (c := '[') rfl _) hinner.loosest (spells_sign (c := ']') rfl _)
  exact .grouped (spells_sign (c := '(') rfl _) hwhole.loosest (spells_sign (c := ')') rfl rest)

/-- The text of a list: its first item, then a comma and a blank in front of
    each other one. -/
theorem toList_commaSeparated (text : String) (texts : List String) :
    (Text.commaSeparated (text :: texts)).toList
      = text.toList ++ texts.flatMap fun text => ',' :: ' ' :: text.toList := by
  unfold Text.commaSeparated
  induction texts generalizing text with
  | nil => simp only [String.intercalate_singleton, List.flatMap_nil, List.append_nil]
  | cons text' texts ih =>
      rw [String.intercalate_cons_cons, String.toList_append, String.toList_append, ih,
        List.flatMap_cons, List.append_assoc]
      rfl

theorem printed_tail {x : Item} {as : List x.Tree} {texts : List String}
    (h : List.Forall₂ (Printed (.item x)) as texts) {rest : List Char} (hrest : Apart rest) :
    Covers (.tail x) as ((texts.flatMap fun text => ',' :: ' ' :: text.toList) ++ rest) rest := by
  induction h with
  | nil => exact .tailEmpty
  | @cons a text as texts ha _ ih =>
      rw [List.flatMap_cons, List.append_assoc]
      -- Behind an item there is a comma, or else what is behind the list.
      have happart : Apart ((texts.flatMap fun text => ',' :: ' ' :: text.toList) ++ rest) := by
        cases texts with
        | nil => exact hrest
        | cons text texts => exact apart_cons _ rfl
      exact .tailItem (spells_sign (c := ',') rfl _) (ha _ happart).blank ih

/-- No sign is part of a name, so what stands in front of it ends there. -/
theorem apart_sign {c : Char} {kind : Kind} (h : sign? c = some kind) (rest : List Char) :
    Apart (c :: rest) := by
  refine apart_cons rest (Bool.eq_false_iff.mpr fun hname => ?_)
  unfold sign? at h
  split at h <;> first | exact absurd hname (by decide) | cases h

/-- A list with the sign that ends it. -/
theorem printed_list {x : Item} {as : List x.Tree} {texts : List String} {close : Kind} {c : Char}
    (hclose : sign? c = some close) (h : List.Forall₂ (Printed (.item x)) as texts)
    (rest : List Char) :
    Covers (.list close x) as ((Text.commaSeparated texts).toList ++ c :: rest) rest := by
  have hend := spells_sign hclose rest
  have happart : Apart (c :: rest) := apart_sign hclose rest
  cases h with
  | nil => exact .listEmpty hend
  | @cons a text as texts ha has =>
      rw [toList_commaSeparated, List.append_assoc]
      have hfirst := ha ((texts.flatMap fun text => ',' :: ' ' :: text.toList) ++ c :: rest) ?_
      · exact .listItems hfirst (printed_tail has happart) hend
      · cases texts with
        | nil => exact happart
        | cons text texts => exact apart_cons _ rfl

theorem printed_call {f : Expr} {args : List Expr} {text : String} {texts : List String}
    (hf : Printed (.expr .application) f text)
    (hargs : List.Forall₂ (Printed (.item .expression)) args texts) :
    Printed (.expr .application) (Expr.call f args)
      (text ++ "(" ++ Text.commaSeparated texts ++ ")") := by
  intro rest _
  simp only [String.toList_append, List.append_assoc]
  have hcallee := hf _ (apart_cons (c := '(')
    ((Text.commaSeparated texts).toList ++ ')' :: rest) rfl)
  exact .call hcallee (spells_sign (c := '(') rfl _) (printed_list (c := ')') rfl hargs rest)

theorem printed_array {es : List Expr} {texts : List String}
    (hes : List.Forall₂ (Printed (.item .expression)) es texts) :
    Printed (.expr .primary) (Expr.array es) ("[" ++ Text.commaSeparated texts ++ "]") := by
  intro rest _
  simp only [String.toList_append, List.append_assoc]
  exact .array (spells_sign (c := '[') rfl _) (printed_list (c := ']') rfl hes rest)

/-- Statements with semicolons between them, in front of a text that ends
    them. -/
theorem printed_statements {ss : Block} {texts : List String}
    (h : List.Forall₂ (Printed .statement) ss texts) {braced : Bool} {tail rest : List Char}
    (htail : Apart tail) (hend : Covers (.statements braced) ([] : Block) tail rest) :
    Covers (.statements braced) ss ((String.intercalate "; " texts).toList ++ tail) rest := by
  induction h with
  | nil => exact hend
  | @cons s text ss texts hs hss ih =>
      cases hss with
      | nil =>
          rw [String.intercalate_singleton]
          exact .last (hs tail htail) hend
      | @cons s' text' ss texts hs' hss =>
          rw [String.intercalate_cons_cons, String.toList_append, String.toList_append,
            List.append_assoc, List.append_assoc]
          exact .ended (hs _ (apart_cons _ rfl)) (spells_sign (c := ';') rfl _) ih.blank

/-- A block opens with its brace, and its statements are closed by the other
    one. -/
theorem printed_block {ss : Block} (h : List.Forall₂ (Printed .statement) ss (Block.texts ss))
    (rest : List Char) :
    ∃ m, Spells ((Block.text ss).toList ++ rest) .leftBrace (String.ofList ['\x7b']) m ∧
      Covers (.statements true) ss m rest := by
  -- A blank stands in front of the closing brace even if there are no statements.
  have hclose : Covers (.statements true) ([] : Block) (' ' :: '\x7d' :: rest) rest :=
    (Covers.closed (spells_sign (c := '\x7d') rfl rest)).blank
  cases ss with
  | nil => exact ⟨' ' :: '\x7d' :: rest, spells_sign (c := '\x7b') rfl _, hclose⟩
  | cons s ss =>
      have hstatements := (printed_statements h (apart_cons (c := ' ') _ rfl) hclose).blank
      refine ⟨_, ?_, hstatements⟩
      simp only [Block.text, Text.braced, Block.texts, String.toList_append, List.append_assoc]
      exact spells_sign (c := '\x7b') rfl _

theorem printed_cond {test : Expr} {c : Block} {text : String}
    (htest : Printed (.expr .application) test text)
    (hc : List.Forall₂ (Printed .statement) c (Block.texts c)) :
    Printed (.expr .primary) (Expr.cond test c none)
      ("if " ++ text ++ " " ++ Block.text c) := by
  intro rest _
  simp only [String.toList_append, List.append_assoc]
  rcases printed_block hc rest with ⟨m, hopen, hblock⟩
  have hcondition := htest (' ' :: ((Block.text c).toList ++ rest)) (apart_cons _ rfl)
  exact .noElse (spells_keyword (k := .ifWord) (by decide) (apart_cons _ rfl))
    hcondition.blank.loosest hopen.blank hblock

theorem printed_cond_else {test : Expr} {c d : Block} {text : String}
    (htest : Printed (.expr .application) test text)
    (hc : List.Forall₂ (Printed .statement) c (Block.texts c))
    (hd : List.Forall₂ (Printed .statement) d (Block.texts d)) :
    Printed (.expr .primary) (Expr.cond test c (some d))
      ("if " ++ text ++ " " ++ Block.text c ++ " else " ++ Block.text d) := by
  intro rest _
  simp only [String.toList_append, List.append_assoc]
  rcases printed_block hd rest with ⟨m', hopen', hblock'⟩
  rcases printed_block hc (" else ".toList ++ ((Block.text d).toList ++ rest)) with
    ⟨m, hopen, hblock⟩
  have hcondition := htest
    (' ' :: ((Block.text c).toList ++ (" else ".toList ++ ((Block.text d).toList ++ rest))))
    (apart_cons _ rfl)
  exact .elseBlock (spells_keyword (k := .ifWord) (by decide) (apart_cons _ rfl))
    hcondition.blank.loosest hopen.blank hblock
    (spells_keyword (k := .elseWord) (by decide) (apart_cons _ rfl)).blank
    hopen'.blank hblock'

theorem printed_fn {ps : List String} {body : Block} (hps : ∀ name ∈ ps, Lexer.isName name)
    (hbody : List.Forall₂ (Printed .statement) body (Block.texts body)) :
    Printed (.expr .primary) (Expr.fn ps body)
      ("fn(" ++ Text.commaSeparated ps ++ ") " ++ Block.text body) := by
  intro rest _
  simp only [String.toList_append, List.append_assoc]
  have hparams : List.Forall₂ (Printed (.item .parameter)) ps ps :=
    List.forall₂_same.mpr fun name hname _ hrest =>
      .itemParameter (spells_name (hps name hname) hrest)
  rcases printed_block hbody rest with ⟨m, hopen, hblock⟩
  have hlist := printed_list (c := ')') rfl hparams (' ' :: ((Block.text body).toList ++ rest))
  exact .fn (spells_keyword (k := .fnWord) (by decide) (apart_cons _ rfl))
    (spells_sign (c := '(') rfl _) hlist hopen.blank hblock

/-- The text of a pair: those of its key and its value, with a colon and a
    blank between them. -/
def PrintedPair (pair : Expr × Expr) (text : String) : Prop :=
  ∃ key value : String, text = key ++ ": " ++ value ∧
    Printed (.expr .equality) pair.1 key ∧ Printed (.expr .equality) pair.2 value

/-- The pairs of a map with the brace that ends it. Only the last pair has no
    comma behind it. -/
theorem printed_pairs {ps : List (Expr × Expr)} {texts : List String}
    (h : List.Forall₂ PrintedPair ps texts) (rest : List Char) :
    Covers .pairs ps ((Text.commaSeparated texts).toList ++ '\x7d' :: rest) rest := by
  induction h with
  | nil => exact .pairsEmpty (spells_sign (c := '\x7d') rfl rest)
  | @cons p text ps texts hp hps ih =>
      rcases p with ⟨k, v⟩
      rcases hp with ⟨key, value, rfl, hk, hv⟩
      have hcolon : ∀ text,
          Spells (": ".toList ++ text) .colon (String.ofList [':']) (' ' :: text) :=
        fun text => spells_sign (c := ':') rfl _
      have hkey : ∀ text, Covers (.expr .equality) k (key.toList ++ (": ".toList ++ text))
          (": ".toList ++ text) :=
        fun text => hk _ (apart_cons _ rfl)
      have hvalue : ∀ {c : Char} (text), isNameRest c = false →
          Covers (.expr .equality) v (' ' :: (value.toList ++ c :: text)) (c :: text) :=
        fun text hc => (hv _ (apart_cons text hc)).blank
      cases hps with
      | nil =>
          simp only [Text.commaSeparated, String.intercalate_singleton, String.toList_append,
            List.append_assoc]
          exact .pairsLast (hkey _) (hcolon _) (hvalue rest (by decide))
            (spells_sign (c := '\x7d') rfl rest)
      | cons hp' hps' =>
          simp only [Text.commaSeparated, String.intercalate_cons_cons, String.toList_append,
            List.append_assoc] at ih ⊢
          exact .pairsMore (hkey _) (hcolon _) (hvalue _ (by decide))
            (spells_sign (c := ',') rfl _) ih.blank

theorem printed_map {ps : List (Expr × Expr)} {texts : List String}
    (h : List.Forall₂ PrintedPair ps texts) :
    Printed (.expr .primary) (Expr.map ps) (Text.braced (Text.commaSeparated texts)) := by
  intro rest _
  simp only [Text.braced, String.toList_append, List.append_assoc]
  exact .map (spells_sign (c := '\x7b') rfl _) (printed_pairs h rest)

mutual

/-- A printed expression derives its tree and binds as tightly as a call. -/
theorem Expr.printed : ∀ e : Expr, e.WellFormed → Printed (.expr .application) e e.text
  | .ident _, h => (printed_ident h).of_primary
  | .int _, h => (printed_int h).of_primary
  | .str contents, _ => (printed_str contents).of_primary
  | .bool b, _ => (printed_bool b).of_primary
  | .unary _ operand, h => (printed_unary h.1 (Expr.printed operand h.2)).of_primary
  | .binary _ left right, h =>
    (printed_binary h.1 (Expr.printed left h.2.1) (Expr.printed right h.2.2)).of_primary
  | .cond test c none, h => by
    have hcond := printed_cond (Expr.printed test h.1) (Block.printed c h.2)
    simp only [Expr.text, String.append_empty]
    exact hcond.of_primary
  | .cond test c (some d), h => by
    have hcond := printed_cond_else (Expr.printed test h.1) (Block.printed c h.2.1)
      (Block.printed d h.2.2)
    simp only [Expr.text, ← String.append_assoc] at hcond ⊢
    exact hcond.of_primary
  | .fn _ body, h => (printed_fn h.1 (Block.printed body h.2)).of_primary
  | .call callee args, h => printed_call (Expr.printed callee h.1) (Expr.allPrinted args h.2)
  | .array elements, h => (printed_array (Expr.allPrinted elements h)).of_primary
  | .index base key, h =>
    (printed_index (Expr.printed base h.1) (Expr.printed key h.2)).of_primary
  | .map pairs, h => (printed_map (Expr.pairsPrinted pairs h)).of_primary

/-- A printed statement derives its tree. -/
theorem Stmt.printed : ∀ s : Stmt, s.WellFormed → Printed .statement s s.text
  | .bind name value, h => by
    intro rest hrest
    simp only [Stmt.text, String.toList_append, List.append_assoc]
    have hvalue := Expr.printed value h.2 rest hrest
    have hassign : Spells ('=' :: ' ' :: (value.text.toList ++ rest)) .assign "=" _ :=
      spells_assign (blank_ne_equals _)
    exact .bind (spells_keyword (k := .letWord) (by decide) (apart_cons _ rfl))
      (spells_name h.1 (apart_cons _ rfl)).blank hassign.blank
      hvalue.blank.loosest
  | .ret value, h => by
    intro rest hrest
    simp only [Stmt.text, String.toList_append, List.append_assoc]
    exact .ret (spells_keyword (k := .returnWord) (by decide) (apart_cons _ rfl))
      (Expr.printed value h rest hrest).blank.loosest
  | .expr value, h => fun rest hrest => .expr (Expr.printed value h rest hrest).loosest

/-- The statements of a printed block derive their trees. -/
theorem Block.printed : ∀ ss : Block, Block.WellFormed ss →
    List.Forall₂ (Printed .statement) ss (Block.texts ss)
  | [], _ => .nil
  | s :: ss, h => .cons (Stmt.printed s h.1) (Block.printed ss h.2)

/-- Printed items of a list derive their trees. -/
theorem Expr.allPrinted : ∀ es : List Expr, Expr.AllWellFormed es →
    List.Forall₂ (Printed (.item .expression)) es (Expr.texts es)
  | [], _ => .nil
  | e :: es, h =>
    .cons (Expr.printed e h.1).item (Expr.allPrinted es h.2)

/-- Printed pairs of a map derive their trees. -/
theorem Expr.pairsPrinted : ∀ ps : List (Expr × Expr), Expr.PairsWellFormed ps →
    List.Forall₂ PrintedPair ps (Expr.pairTexts ps)
  | [], _ => .nil
  | (k, v) :: ps, h =>
    .cons ⟨k.text, v.text, rfl, (Expr.printed k h.1).loosest, (Expr.printed v h.2.1).loosest⟩
      (Expr.pairsPrinted ps h.2.2)

end

/-- A printed program derives itself. -/
theorem derives_text {program : Block} (h : Block.WellFormed program) :
    Derives (.statements false) program (Lexer.read (Program.text program)).tokens [] := by
  have hend : Covers (.statements false) ([] : Block) [] [] := .finish
  have hcovers := printed_statements (Block.printed program h) apart_nil hend
  rcases hcovers 0 with ⟨k, hderives⟩
  rw [List.append_nil, tokensAt_nil] at hderives
  exact hderives

/-- A program that is printed and then parsed comes back. -/
theorem parseStrict_text (program : Block) (h : Block.WellFormed program) :
    parseStrict (Program.text program) = .ok program :=
  parseStrict_eq_ok (derives_text h)

/-- A program in which phrases without parentheses stand where they could be
    taken for something else: a condition as a callee, a function in front of
    an index, a map as a condition, and a nested condition as a branch. -/
def crowdedProgram : Block :=
  [.bind "f" (.call (.cond (.map [(.str "k\"\n", .array [])]) [] (some [.expr (.cond
      (.ident "x_1") [.ret (.unary .minus (.int 7))] none)])) [.fn ["a", "b"] [], .bool true]),
    .expr (.binary .notEqual (.index (.fn [] [.expr (.unary .bang (.ident "f"))]) (.str "\\"))
      (.binary .plus (.call (.ident "f") []) (.int 9223372036854775807)))]

theorem parseStrict_text_crowdedProgram :
    Block.WellFormed crowdedProgram ∧
      parseStrict (Program.text crowdedProgram) = .ok crowdedProgram := by
  have h : Block.WellFormed crowdedProgram := by
    simp only [crowdedProgram, Block.WellFormed, Stmt.WellFormed, Expr.WellFormed,
      Expr.AllWellFormed, Expr.PairsWellFormed]
    decide
  exact ⟨h, parseStrict_text crowdedProgram h⟩

end Monkey
