import TreeRules.Parser.File
import Mathlib.Tactic.Lemma

/-! The grammar of rule files, as relations between lists of tokens and what they write. Nothing
here knows of parsers: a relation says which tokens make up a thing and where the thing stands. -/
namespace TreeRules.Grammar

open Token (Kind)

/-- From the start of the first token to the end of the last. -/
def cover (ts : List Token) : Span :=
  ⟨ts.head?.elim 0 (·.span.start),ts.getLast?.elim 0 (·.span.stop)⟩

/-- What stands between the quotes of a literal. -/
def literalBody (t : Token) : List Char := (t.text.toList.drop 1).dropLast

variable {α : Type}

/-- A hole whose number has at most 32 bits. -/
inductive HoleOf : List Token → Hole → Prop
  | intro {t : Token} {h : Hole} (hk : t.kind = .hole)
      (hh : Hole.ofDigits? (t.text.toList.drop 1) = some h) : HoleOf [t] h

inductive DotsOf : List Token → Bool → Prop
  | none : DotsOf [] false
  | some {t : Token} (hk : t.kind = .ellipsis) : DotsOf [t] true

/-- A character literal, with a known escape or none. -/
inductive CharOf : List Token → Char → Prop
  | intro {t : Token} {c : Char} (hk : t.kind = .charLiteral)
      (hc : unescapeChars (literalBody t) = .ok [c]) : CharOf [t] c

/-- `data := Hole | String`. The escapes of a string are known ones. -/
inductive DatumOf : List Token → Datum → Prop
  | hole {ts : List Token} {h : Hole} (hh : HoleOf ts h) : DatumOf ts (.hole h)
  | literal {t : Token} {chars : List Char} (hk : t.kind = .stringLiteral)
      (hc : unescapeChars (literalBody t) = .ok chars) :
      DatumOf [t] (.literal (String.ofList chars))

/-- `('<' data '>')?` -/
inductive DataOf : List Token → Option Datum → Prop
  | none : DataOf [] none
  | some {o c : Token} {ts : List Token} {d : Datum} (ho : o.kind = .angleOpen)
      (hd : DatumOf ts d) (hc : c.kind = .angleClose) : DataOf (o :: (ts ++ [c])) (some d)

/-- Any number of things, one behind the other. -/
inductive Many (R : List Token → α → Prop) : List Token → List α → Prop
  | nil : Many R [] []
  | cons {ts us : List Token} {a : α} {as : List α} (ha : R ts a) (has : Many R us as) :
      Many R (ts ++ us) (a :: as)

/-- A comma, and a thing behind it. -/
inductive AfterComma (R : List Token → α → Prop) : List Token → α → Prop
  | intro {c : Token} {ts : List Token} {a : α} (hc : c.kind = .comma) (ha : R ts a) :
      AfterComma R (c :: ts) a

/-- `element (',' element)*` -/
inductive SeparatedOf (R : List Token → α → Prop) : List Token → List α → Prop
  | intro {ts us : List Token} {a : α} {as : List α} (ha : R ts a)
      (has : Many (AfterComma R) us as) : SeparatedOf R (ts ++ us) (a :: as)

/-- `'(' elements? ')'` -/
inductive ListOf (R : List Token → α → Prop) : List Token → List α → Prop
  | empty {o c : Token} (ho : o.kind = .parenOpen) (hc : c.kind = .parenClose) :
      ListOf R [o,c] []
  | some {o c : Token} {ts : List Token} {as : List α} (ho : o.kind = .parenOpen)
      (has : SeparatedOf R ts as) (hc : c.kind = .parenClose) : ListOf R (o :: (ts ++ [c])) as

/-- `('(' elements? ')')?` -/
inductive ChildrenOf (R : List Token → α → Prop) : List Token → List α → Prop
  | none : ChildrenOf R [] []
  | some {ts : List Token} {as : List α} (has : ListOf R ts as) : ChildrenOf R ts as

/-- `('<' Hole '>')?` -/
inductive RangeHoleOf : List Token → Option Hole → Prop
  | none : RangeHoleOf [] none
  | some {o c : Token} {ts : List Token} {h : Hole} (ho : o.kind = .angleOpen)
      (hh : HoleOf ts h) (hc : c.kind = .angleClose) : RangeHoleOf (o :: (ts ++ [c])) (some h)

/-- The productions of `atom`, up to the tag of the item; `R` reads the items inside. -/
inductive FormOf (R : List Token → Item → Prop) : List Token → (Item.Tag → Item) → Prop
  | typedHole {name : Token} {ts ds : List Token} {h : Hole} {ellipsis : Bool}
      (hn : name.kind = .id) (hh : HoleOf ts h) (hd : DotsOf ds ellipsis) :
      FormOf R (name :: (ts ++ ds)) fun tag => .typedHole tag name.text h ellipsis
  | fixed {name : Token} {ts us : List Token} {data : Option Datum} {items : List Item}
      (hn : name.kind = .id) (hd : DataOf ts data) (hi : ChildrenOf R us items) :
      FormOf R (name :: (ts ++ us)) fun tag => .fixed tag name.text data items
  | untypedHole {ts ds : List Token} {h : Hole} {ellipsis : Bool} (hh : HoleOf ts h)
      (hd : DotsOf ds ellipsis) : FormOf R (ts ++ ds) fun tag => .untypedHole tag h ellipsis
  | symbolRange {ts us hs : List Token} {d : Token} {first last : Char} {hole : Option Hole}
      (hf : CharOf ts first) (hd : d.kind = .dotDot) (hl : CharOf us last)
      (hh : RangeHoleOf hs hole) :
      FormOf R (ts ++ d :: (us ++ hs)) fun tag => .symbolRange tag first last hole
  | anyOf {sign : Token} {ts : List Token} {items : List Item} (hs : sign.kind = .pipe)
      (hi : ListOf R ts items) : FormOf R (sign :: ts) fun tag => .anyOf tag items
  | allOf {sign : Token} {ts : List Token} {items : List Item} (hs : sign.kind = .ampersand)
      (hi : ListOf R ts items) : FormOf R (sign :: ts) fun tag => .allOf tag items
  | rest {t : Token} (ht : t.kind = .ellipsis) : FormOf R [t] .rest

/-- `'!'? atom` -/
inductive BareOf (R : List Token → Item → Prop) : List Token → Item → Prop
  | plain {ts : List Token} {make : Item.Tag → Item} (hm : FormOf R ts make) :
      BareOf R ts (make ⟨.normal,false,cover ts⟩)
  | negated {sign : Token} {ts : List Token} {make : Item.Tag → Item} (hs : sign.kind = .negation)
      (hm : FormOf R ts make) : BareOf R (sign :: ts) (make ⟨.normal,true,cover (sign :: ts)⟩)

/-- What brackets write a mode. -/
inductive BracketsOf : Kind → Kind → Mode → Prop
  | optional : BracketsOf .bracketOpen .bracketClose .optional
  | repeated : BracketsOf .braceOpen .braceClose .repeated

/-- The productions of `item`: a mode bracket holds no other. -/
inductive ItemWith (R : List Token → Item → Prop) : List Token → Item → Prop
  | bare {ts : List Token} {i : Item} (hi : BareOf R ts i) : ItemWith R ts i
  | moded {o c : Token} {ts : List Token} {i : Item} {mode : Mode}
      (hb : BracketsOf o.kind c.kind mode) (hi : BareOf R ts i) :
      ItemWith R (o :: (ts ++ [c]))
        (i.withTag { i.tag with mode := mode, span := cover (o :: (ts ++ [c])) })

/-- Items: the least relation that the productions are closed under. -/
inductive ItemOf : List Token → Item → Prop
  | intro {R : List Token → Item → Prop} (hR : ∀ ts i, R ts i → ItemOf ts i) {ts : List Token}
      {i : Item} (hi : ItemWith R ts i) : ItemOf ts i

/-- The productions of `result`, up to its span. -/
inductive TemplateForm (R : List Token → Template → Prop) : List Token → (Span → Template) → Prop
  | null {t : Token} (ht : t.kind = .kwNull) : TemplateForm R [t] .null
  | hole {ts : List Token} {h : Hole} (hh : HoleOf ts h) :
      TemplateForm R ts fun span => .hole span h
  | subtree {name : Token} {ts us : List Token} {data : Option Datum} {parts : List Template}
      (hn : name.kind = .id) (hd : DataOf ts data) (hp : ChildrenOf R us parts) :
      TemplateForm R (name :: (ts ++ us)) fun span => .subtree span name.text data parts

inductive TemplateWith (R : List Token → Template → Prop) : List Token → Template → Prop
  | intro {ts : List Token} {make : Span → Template} (hm : TemplateForm R ts make) :
      TemplateWith R ts (make (cover ts))

/-- Templates: the least relation that the productions are closed under. -/
inductive TemplateOf : List Token → Template → Prop
  | intro {R : List Token → Template → Prop} (hR : ∀ ts t, R ts t → TemplateOf ts t)
      {ts : List Token} {t : Template} (ht : TemplateWith R ts t) : TemplateOf ts t

/-- `rule := item (',' item)* '->' result ';'` -/
inductive RuleOf : List Token → Rule → Prop
  | intro {ts us : List Token} {arrow semicolon : Token} {pattern : List Item} {result : Template}
      (hp : SeparatedOf ItemOf ts pattern) (ha : arrow.kind = .arrow) (hr : TemplateOf us result)
      (hs : semicolon.kind = .semicolon) :
      RuleOf (ts ++ arrow :: (us ++ [semicolon]))
        ⟨pattern,result,cover (ts ++ arrow :: (us ++ [semicolon]))⟩

/-- `language | rule`, where `language := 'language' Id '{' rule* '}'`. -/
inductive EntryOf : List Token → Parser.Entry → Prop
  | loose {ts : List Token} {r : Rule} (hr : RuleOf ts r) : EntryOf ts (.loose r)
  | block {kw name o c : Token} {ts : List Token} {rules : List Rule} (hk : kw.kind = .kwLanguage)
      (hn : name.kind = .id) (ho : o.kind = .braceOpen) (hr : Many RuleOf ts rules)
      (hc : c.kind = .braceClose) :
      EntryOf (kw :: name :: o :: (ts ++ [c])) (.block ⟨name.text,some name.span,rules⟩)

/-- `file := (language | rule)*` -/
def FileOf : List Token → List Parser.Entry → Prop := Many EntryOf

section Mono

variable {R S : List Token → α → Prop} {ts : List Token} {as : List α}

lemma Many.mono (hRS : ∀ ts a, R ts a → S ts a) (h : Many R ts as) : Many S ts as := by
  induction h with
  | nil => exact .nil
  | cons ha _ ih => exact .cons (hRS _ _ ha) ih

lemma ListOf.mono (hRS : ∀ ts a, R ts a → S ts a) (h : ListOf R ts as) : ListOf S ts as := by
  cases h with
  | empty ho hc => exact .empty ho hc
  | some ho has hc =>
    obtain ⟨ha,has⟩ := has
    exact .some ho ⟨hRS _ _ ha,has.mono fun _ _ ⟨hk,hb⟩ => ⟨hk,hRS _ _ hb⟩⟩ hc

lemma ChildrenOf.mono (hRS : ∀ ts a, R ts a → S ts a) (h : ChildrenOf R ts as) :
    ChildrenOf S ts as := by
  cases h with
  | none => exact .none
  | some has => exact .some (has.mono hRS)

end Mono

lemma FormOf.mono {R S : List Token → Item → Prop} (hRS : ∀ ts i, R ts i → S ts i)
    {ts : List Token} {make : Item.Tag → Item} (h : FormOf R ts make) : FormOf S ts make := by
  cases h with
  | typedHole hn hh hd => exact .typedHole hn hh hd
  | fixed hn hd hi => exact .fixed hn hd (hi.mono hRS)
  | untypedHole hh hd => exact .untypedHole hh hd
  | symbolRange hf hd hl hh => exact .symbolRange hf hd hl hh
  | anyOf hs hi => exact .anyOf hs (hi.mono hRS)
  | allOf hs hi => exact .allOf hs (hi.mono hRS)
  | rest ht => exact .rest ht

lemma BareOf.mono {R S : List Token → Item → Prop} (hRS : ∀ ts i, R ts i → S ts i)
    {ts : List Token} {i : Item} (h : BareOf R ts i) : BareOf S ts i := by
  cases h with
  | plain hm => exact .plain (hm.mono hRS)
  | negated hs hm => exact .negated hs (hm.mono hRS)

lemma ItemWith.mono {R S : List Token → Item → Prop} (hRS : ∀ ts i, R ts i → S ts i)
    {ts : List Token} {i : Item} (h : ItemWith R ts i) : ItemWith S ts i := by
  cases h with
  | bare hi => exact .bare (hi.mono hRS)
  | moded hb hi => exact .moded hb (hi.mono hRS)

/-- Items are what the productions make of items. -/
theorem itemOf_iff {ts : List Token} {i : Item} : ItemOf ts i ↔ ItemWith ItemOf ts i :=
  ⟨fun ⟨hR,hi⟩ => hi.mono hR,.intro fun _ _ h => h⟩

lemma TemplateWith.mono {R S : List Token → Template → Prop} (hRS : ∀ ts t, R ts t → S ts t)
    {ts : List Token} {t : Template} (h : TemplateWith R ts t) : TemplateWith S ts t := by
  obtain ⟨hm⟩ := h
  cases hm with
  | null ht => exact .intro (.null ht)
  | hole hh => exact .intro (.hole hh)
  | subtree hn hd hp => exact .intro (.subtree hn hd (hp.mono hRS))

/-- Templates are what the productions make of templates. -/
theorem templateOf_iff {ts : List Token} {t : Template} :
    TemplateOf ts t ↔ TemplateWith TemplateOf ts t :=
  ⟨fun ⟨hR,ht⟩ => ht.mono hR,.intro fun _ _ h => h⟩

end TreeRules.Grammar
