import TreeRules.Proofs.Parser.Written
import TreeRules.Proofs.Pattern.Key
import TreeRules.Proofs.Pattern.Meaning

/-! Items, templates and rules as they are written, read back by the lexer and the grammar. -/
namespace TreeRules

open Grammar Lexer
open Text (StopsAt)
open Token (Kind)

lemma isBlank_of_isIdStart {c : Char} (h : isIdStart c = true) : isBlank c = false := by
  have hne : ∀ d, isIdStart d = false → c ≠ d := by
    rintro d hd rfl
    rw [hd] at h
    cases h
  simp [isBlank, hne ' ' (by decide), hne '\t' (by decide), hne '\r' (by decide),
    hne '\n' (by decide)]

lemma IsTypeName.stopsAt_isBlank {name : String} (h : IsTypeName name) (rest : List Char) :
    StopsAt isBlank (name.toList ++ rest) := by
  obtain ⟨⟨c,cs,hname,hc,-⟩,-⟩ := h
  rw [hname]
  simpa [StopsAt] using isBlank_of_isIdStart hc

/-- What follows a type name does not go on with it. -/
lemma stopsAt_dataBlock (data : Option Datum) {chars : List Char} (h : StopsAt isIdChar chars) :
    StopsAt isIdChar ((Datum.block data).toList ++ chars) := by
  cases data with
  | none => simpa [Datum.block] using h
  | some d =>
    simp only [Datum.block, String.toList_append, List.append_assoc]
    exact Item.stopsAt_cons (by decide) _

section Shared

variable {α β : Type} {R : List Token → α → Prop} {forget : α → β} {quotes : α → List Quote}
  {text : α → List Char} {as : List α} {rest : List Char}

/-- A type name, its data and its children are read back one behind the other. -/
lemma writes_node {name : String} (hn : IsTypeName name) (data : Option Datum)
    (h : ∀ a ∈ as, Written R forget a (quotes a) (text a)) (hrest : Ends rest) :
    Writes (Datum.quotes data ++ as.flatMap quotes)
      (name.toList ++ ((Datum.block data).toList ++ childrenText text as)) rest
      (Then (Name name) (Then (DataOf · data) fun ts =>
        ∃ bs, ChildrenOf R ts bs ∧ bs.map forget = as.map forget)) := by
  have hstop : StopsAt isIdChar ((Datum.block data).toList ++ childrenText text as ++ rest) := by
    rw [List.append_assoc]
    exact stopsAt_dataBlock data (stopsAt_childrenText hrest)
  exact (writes_typeName hn hstop).before ((writes_dataBlock data).append (writes_children h))

/-- A sign and a list in parentheses. -/
lemma writes_combined {sign : Char} {kind : Kind} (hs : punctuation? sign = some kind)
    (h : ∀ a ∈ as, Written R forget a (quotes a) (text a)) :
    Writes (as.flatMap quotes) (sign :: '(' :: (commaText text as ++ [')'])) rest
      (Then (Sign kind) fun ts => ∃ bs, ListOf R ts bs ∧ bs.map forget = as.map forget) := by
  have hsign : Writes [] [sign] ('(' :: (commaText text as ++ [')']) ++ rest) (Sign kind) :=
    .sign hs
  exact hsign.before (writes_list h)

end Shared

namespace Item

lemma stopsAt_dots_of_ends (ellipsis : Bool) {rest : List Char} (h : Ends rest) :
    StopsAt Char.isDigit ((dots ellipsis).toList ++ rest) := by
  cases ellipsis with
  | false => exact h.stopsAt (by decide)
  | true => exact stopsAt_cons (by decide) _

lemma placeless_withTag (t : Tag) (i : Item) :
    (i.withTag t).placeless = i.placeless.withTag { t with span := .none } := by
  cases i <;> simp [withTag, placeless]

lemma toList_listText (items : List Item) :
    (listText items).toList = commaText (·.text.toList) items := by
  induction items with
  | nil => rfl
  | cons i items ih =>
    cases items with
    | nil => rfl
    | cons j items =>
      rw [listText, commaText, ← ih]
      simp [text]

/-- An item that is read back from its text, up to where it stands. -/
def ReadBack (i : Item) : Prop := Written ItemOf placeless i i.quotes i.text.toList

section Forms

variable {i : Item} {rest : List Char}

/-- The text of an item without mode and negation is read back to a form that makes the item. -/
lemma writes_bare (hn : ∀ name ∈ i.typeNames, IsTypeName name) (hi : ∀ j ∈ i.inner, j.ReadBack)
    (hrest : Ends rest) : Writes i.quotes i.bare.toList rest fun ts =>
      ∃ make, FormOf ItemOf ts make ∧ ∀ t, (make t).placeless = (i.withTag t).placeless := by
  cases i with
  | fixed t type data children =>
    have hchars : (bare (.fixed t type data children)).toList =
        type.toList ++ ((Datum.block data).toList ++ childrenText (·.text.toList) children) := by
      simp [bare, withTag, body, toList_parenthesized (toList_listText children)]
    rw [hchars, quotes, listQuotes_eq_flatMap]
    refine (writes_node (hn type (by simp [typeNames])) data hi hrest).mono ?_
    rintro _ ⟨_,_,rfl,⟨name,rfl,hk,rfl⟩,us,vs,rfl,hus,items,hvs,hitems⟩
    have hform := FormOf.fixed hk hus hvs
    exact ⟨_,hform,fun t => by simpa [withTag, placeless, inner] using hitems⟩
  | typedHole t type hole ellipsis =>
    have hchars : (bare (.typedHole t type hole ellipsis)).toList =
        type.toList ++ (hole.text.toList ++ (dots ellipsis).toList) := by
      simp [bare, withTag, body]
    have hstop : StopsAt isIdChar (hole.text.toList ++ (dots ellipsis).toList ++ rest) := by
      rw [hole.toList_text]
      exact stopsAt_cons (by decide) _
    have hname := writes_typeName (hn type (by simp [typeNames])) hstop
    have hhole := writes_hole hole (stopsAt_dots_of_ends ellipsis hrest)
    rw [hchars]
    refine (hname.before (hhole.before (writes_dots ellipsis))).mono ?_
    rintro _ ⟨_,_,rfl,⟨name,rfl,hk,rfl⟩,us,vs,rfl,hus,hvs⟩
    have hform : FormOf ItemOf (name :: (us ++ vs)) _ := .typedHole hk hus hvs
    exact ⟨_,hform,fun t => rfl⟩
  | untypedHole t hole ellipsis =>
    have hchars : (bare (.untypedHole t hole ellipsis)).toList =
        hole.text.toList ++ (dots ellipsis).toList := by
      simp [bare, withTag, body]
    have hhole := writes_hole hole (stopsAt_dots_of_ends ellipsis hrest)
    rw [hchars]
    refine (hhole.before (writes_dots ellipsis)).mono ?_
    rintro _ ⟨us,vs,rfl,hus,hvs⟩
    exact ⟨_,.untypedHole hus hvs,fun t => rfl⟩
  | symbolRange t first last hole =>
    have hchars : (bare (.symbolRange t first last hole)).toList =
        (Text.quotedChar first).toList ++ (['.','.'] ++ ((Text.quotedChar last).toList ++
          (Datum.block (hole.map .hole)).toList)) := by
      simp [bare, withTag, body]
    have hdots : Writes [] ['.','.'] ((Text.quotedChar last).toList ++
        (Datum.block (hole.map .hole)).toList ++ rest) (Sign .dotDot) := by
      rw [Text.quotedChar, String.append_assoc, String.toList_append, List.append_assoc,
        List.append_assoc]
      exact .word rfl (by decide) fun t hk _ => ⟨t,rfl,hk⟩
    rw [hchars]
    refine ((writes_quotedChar first).append (hdots.before
      ((writes_quotedChar last).append (writes_rangeHole hole)))).mono ?_
    rintro _ ⟨us,_,rfl,hus,_,_,rfl,⟨d,rfl,hd⟩,vs,ws,rfl,hvs,hws⟩
    have hform : FormOf ItemOf (us ++ d :: (vs ++ ws)) _ := .symbolRange hus hd hvs hws
    exact ⟨_,hform,fun t => rfl⟩
  | anyOf t items =>
    have hchars : (bare (.anyOf t items)).toList =
        '|' :: '(' :: (commaText (·.text.toList) items ++ [')']) := by
      simp [bare, withTag, body, toList_listText]
    rw [hchars, quotes, listQuotes_eq_flatMap]
    refine (writes_combined rfl hi).mono ?_
    rintro _ ⟨_,us,rfl,⟨sign,rfl,hk⟩,bs,hus,hbs⟩
    exact ⟨_,.anyOf hk hus,fun t => by simpa [withTag, placeless, inner] using hbs⟩
  | allOf t items =>
    have hchars : (bare (.allOf t items)).toList =
        '&' :: '(' :: (commaText (·.text.toList) items ++ [')']) := by
      simp [bare, withTag, body, toList_listText]
    rw [hchars, quotes, listQuotes_eq_flatMap]
    refine (writes_combined rfl hi).mono ?_
    rintro _ ⟨_,us,rfl,⟨sign,rfl,hk⟩,bs,hus,hbs⟩
    exact ⟨_,.allOf hk hus,fun t => by simpa [withTag, placeless, inner] using hbs⟩
  | rest t =>
    refine (writes_dots true).mono ?_
    rintro _ (_ | ⟨hk⟩)
    exact ⟨_,.rest hk,fun t => rfl⟩

/-- With negation, it is read back to the item but for the mode. -/
lemma writes_body (hn : ∀ name ∈ i.typeNames, IsTypeName name) (hi : ∀ j ∈ i.inner, j.ReadBack)
    (hrest : Ends rest) : Writes i.quotes i.body.toList rest fun ts =>
      ∃ j, BareOf ItemOf ts j ∧ j.placeless = i.core := by
  have hbare := writes_bare hn hi hrest
  rw [body_eq_bang_append, String.toList_append]
  cases hneg : i.tag.negated with
  | false =>
    have hbang : i.tag.bang.toList = [] := by simp [Tag.bang, hneg]
    rw [hbang, List.nil_append]
    refine hbare.mono ?_
    rintro ts ⟨make,hmake,hsame⟩
    refine ⟨_,.plain hmake,?_⟩
    rw [hsame, placeless_withTag, core, negated, hneg]
  | true =>
    have hbang : i.tag.bang.toList = ['!'] := by simp [Tag.bang, hneg]
    have hsign : Writes [] ['!'] (i.bare.toList ++ rest) (Sign .negation) := .sign rfl
    rw [hbang]
    refine (hsign.before hbare).mono ?_
    rintro _ ⟨_,us,rfl,⟨sign,rfl,hk⟩,make,hmake,hsame⟩
    refine ⟨_,.negated hk hmake,?_⟩
    rw [hsame, placeless_withTag, core, negated, hneg]

end Forms

/-- The tag of an item with its place forgotten. -/
lemma tag_placeless (i : Item) : i.placeless.tag = ⟨i.mode,i.negated,.none⟩ := by
  cases i <;> rfl

@[simp] lemma withTag_withTag (t u : Tag) (i : Item) : (i.withTag t).withTag u = i.withTag u := by
  cases i <;> rfl

/-- What is read without the brackets of the mode becomes the item with them. -/
lemma placeless_moded {i j : Item} (h : j.placeless = i.core) (span : Span) :
    (j.withTag { j.tag with mode := i.mode, span := span }).placeless = i.placeless := by
  have hneg : j.tag.negated = i.negated := by
    have := congrArg negated h
    rwa [negated_placeless, core, negated, negated, tag_withTag] at this
  rw [placeless_withTag, h, core, withTag_withTag, hneg]
  have htag := tag_placeless i
  rw [← htag, withTag_tag]

section Modes

variable {i : Item} {rest : List Char}

/-- In the brackets of its mode it is read back to the item. -/
lemma writes_enclosed (hn : ∀ name ∈ i.typeNames, IsTypeName name)
    (hi : ∀ j ∈ i.inner, j.ReadBack) {o c : Char} {opening closing : Kind}
    (ho : punctuation? o = some opening) (hc : punctuation? c = some closing)
    (hb : BracketsOf opening closing i.mode) (hend : Ends (c :: rest)) :
    Writes i.quotes (o :: (i.body.toList ++ [c])) rest fun ts =>
      ∃ j, ItemOf ts j ∧ j.placeless = i.placeless := by
  have hopen : Writes [] [o] (i.body.toList ++ [c] ++ rest) (Sign opening) := .sign ho
  have hclose : Writes [] [c] rest (Sign closing) := .sign hc
  refine (hopen.before (hclose.behind (writes_body hn hi hend))).mono ?_
  rintro _ ⟨_,_,rfl,⟨o,rfl,ho⟩,us,_,rfl,⟨j,hj,hcore⟩,c,rfl,hc⟩
  subst ho hc
  exact ⟨_,itemOf_iff.mpr (.moded hb hj),placeless_moded hcore _⟩

lemma writes_text (hn : ∀ name ∈ i.typeNames, IsTypeName name) (hi : ∀ j ∈ i.inner, j.ReadBack)
    (hrest : Ends rest) : Writes i.quotes i.text.toList rest fun ts =>
      ∃ j, ItemOf ts j ∧ j.placeless = i.placeless := by
  cases hmode : i.mode with
  | normal =>
    rw [text, hmode]
    refine (writes_body hn hi hrest).mono ?_
    rintro ts ⟨j,hj,hcore⟩
    refine ⟨j,itemOf_iff.mpr (.bare hj),?_⟩
    rw [hcore, core, ← hmode, ← tag_placeless, withTag_tag]
  | optional =>
    have hchars : i.text.toList = '[' :: (i.body.toList ++ [']']) := by
      simp [text, hmode, Mode.enclose]
    rw [hchars]
    exact writes_enclosed hn hi rfl rfl (hmode ▸ .optional) (ends_cons (by decide) rest)
  | repeated =>
    have hchars : i.text.toList = '\x7b' :: (i.body.toList ++ ['\x7d']) := by
      simp [text, hmode, Mode.enclose]
    rw [hchars]
    exact writes_enclosed hn hi rfl rfl (hmode ▸ .repeated) (ends_cons (by decide) rest)

end Modes

/-- No item begins with a blank. -/
lemma stopsAt_text {i : Item} (hn : ∀ name ∈ i.typeNames, IsTypeName name) (rest : List Char) :
    StopsAt isBlank (i.text.toList ++ rest) := by
  have hbare : ∀ rest, StopsAt isBlank (i.bare.toList ++ rest) := by
    intro rest
    cases i with
    | fixed t type data children | typedHole t type hole ellipsis =>
      have htype := (hn type (by simp [typeNames])).stopsAt_isBlank
      simp only [bare, withTag, body, bang_plain, String.empty_append, String.toList_append,
        List.append_assoc]
      exact htype _
    | untypedHole t hole ellipsis =>
      simp only [bare, withTag, body, bang_plain, String.empty_append, String.toList_append,
        List.append_assoc, hole.toList_text]
      exact stopsAt_cons (by decide) _
    | symbolRange | anyOf | allOf | rest =>
      simp only [bare, withTag, body, bang_plain, String.empty_append, String.toList_append,
        List.append_assoc, Text.quotedChar]
      exact stopsAt_cons (by decide) _
  have hbody : ∀ rest, StopsAt isBlank (i.body.toList ++ rest) := by
    intro rest
    rw [body_eq_bang_append, String.toList_append, List.append_assoc, Tag.bang]
    split_ifs
    · exact stopsAt_cons (by decide) _
    · exact hbare rest
  rw [text]
  cases i.mode with
  | normal => exact hbody rest
  | optional | repeated =>
    simp only [Mode.enclose, String.toList_append, List.append_assoc]
    exact stopsAt_cons (by decide) _

/-- Every item whose types are named by type names is read back. -/
theorem readBack (i : Item) (hn : ∀ name ∈ i.typeNames, IsTypeName name) : i.ReadBack := by
  induction i using Item.ind with
  | fixed t type data children ih =>
    have hi : ∀ j ∈ children, j.ReadBack := fun j hj => ih j hj fun name hname =>
      hn name (by simp [typeNames]; exact Or.inr ⟨j,hj,hname⟩)
    exact ⟨fun rest hrest => writes_text hn hi hrest,stopsAt_text hn⟩
  | anyOf t items ih | allOf t items ih =>
    have hi : ∀ j ∈ items, j.ReadBack := fun j hj => ih j hj fun name hname =>
      hn name (by simp [typeNames]; exact ⟨j,hj,hname⟩)
    exact ⟨fun rest hrest => writes_text hn hi hrest,stopsAt_text hn⟩
  | typedHole | untypedHole | symbolRange | rest =>
    have hi : ∀ j ∈ ([] : List Item), j.ReadBack := fun _ h => (List.not_mem_nil h).elim
    exact ⟨fun rest hrest => writes_text hn hi hrest,stopsAt_text hn⟩

end Item

/-! Templates. -/

namespace Template

lemma toList_listText (ts : List Template) :
    (listText ts).toList = commaText (·.text.toList) ts := by
  induction ts with
  | nil => rfl
  | cons t ts ih =>
    cases ts with
    | nil => rfl
    | cons u ts =>
      rw [listText, commaText, ← ih]
      simp

lemma toList_text_null (span : Span) : (text (.null span)).toList = ['n','u','l','l'] := by
  simp [text]

/-- A template that is read back from its text, up to where it stands. -/
def ReadBack (t : Template) : Prop := Written TemplateOf placeless t t.quotes t.text.toList

section Forms

variable {t : Template} {rest : List Char}

/-- The text of a template is read back to a form that makes the template. -/
lemma writes_text (hn : ∀ name ∈ t.typeNames, IsTypeName name)
    (hi : ∀ span type data children, t = .subtree span type data children →
      ∀ u ∈ children, u.ReadBack) (hrest : Ends rest) :
    Writes t.quotes t.text.toList rest fun ts =>
      ∃ u, TemplateOf ts u ∧ u.placeless = t.placeless := by
  have hmake : ∀ {ts make}, TemplateForm TemplateOf ts make → TemplateOf ts (make (cover ts)) :=
    fun h => templateOf_iff.mpr (.intro h)
  cases t with
  | subtree span type data children =>
    have hchars : (text (.subtree span type data children)).toList =
        type.toList ++ ((Datum.block data).toList ++ childrenText (·.text.toList) children) := by
      simp [text, toList_parenthesized (toList_listText children)]
    have hchildren := hi span type data children rfl
    rw [hchars, quotes, listQuotes_eq_flatMap]
    refine (writes_node (hn type (by simp [typeNames])) data hchildren hrest).mono ?_
    rintro _ ⟨_,_,rfl,⟨name,rfl,hk,rfl⟩,us,vs,rfl,hus,parts,hvs,hparts⟩
    have hform := TemplateForm.subtree hk hus hvs
    exact ⟨_,hmake hform,by simpa [placeless] using hparts⟩
  | hole span h =>
    refine (writes_hole h (hrest.stopsAt (by decide))).mono fun ts hts => ?_
    exact ⟨_,hmake (.hole hts),rfl⟩
  | null span =>
    have hword : ∀ c ∈ ['u','l','l'], isIdChar c = true := List.all_eq_true.mp rfl
    have hscan : scan 'n' (['u','l','l'] ++ rest) = ⟨.kwNull,4⟩ :=
      scan_word (by decide) hword (hrest.stopsAt (by decide))
    rw [toList_text_null]
    refine .word hscan (by decide) fun word hk _ => ?_
    exact ⟨_,hmake (.null hk),rfl⟩

/-- No template begins with a blank. -/
lemma stopsAt_text (hn : ∀ name ∈ t.typeNames, IsTypeName name) (rest : List Char) :
    StopsAt isBlank (t.text.toList ++ rest) := by
  cases t with
  | subtree span type data children =>
    have htype := (hn type (by simp [typeNames])).stopsAt_isBlank
    simp only [text, String.toList_append, List.append_assoc]
    exact htype _
  | hole span h =>
    rw [text, h.toList_text]
    exact Item.stopsAt_cons (by decide) _
  | null span =>
    rw [toList_text_null]
    exact Item.stopsAt_cons (by decide) _

end Forms

/-- Every template whose types are named by type names is read back. -/
theorem readBack (t : Template) (hn : ∀ name ∈ t.typeNames, IsTypeName name) : t.ReadBack := by
  induction t using Template.ind with
  | subtree span type data children ih =>
    refine ⟨fun rest hrest => writes_text hn ?_ hrest,stopsAt_text hn⟩
    rintro _ _ _ _ ⟨⟩ u hu
    exact ih u hu fun name hname => hn name (by simp [typeNames]; exact Or.inr ⟨u,hu,hname⟩)
  | hole | null =>
    refine ⟨fun rest hrest => writes_text hn ?_ hrest,stopsAt_text hn⟩
    rintro _ _ _ _ ⟨⟩

end Template

/-! Rules. -/

/-- A rule whose types are named by type names is read back. -/
theorem Rule.writes_text {r : Rule} (hp : r.pattern ≠ [])
    (hn : ∀ name ∈ r.typeNames, IsTypeName name) :
    Writes r.quotes r.text.toList [] fun ts =>
      ∃ r', RuleOf ts r' ∧ r'.placeless = r.placeless := by
  have hitems : ∀ i ∈ r.pattern, i.ReadBack := fun i hi => i.readBack fun name hname =>
    hn name (List.mem_append_left _ (List.mem_flatMap.mpr ⟨i,hi,hname⟩))
  have hresult : r.result.ReadBack := r.result.readBack fun name hname =>
    hn name (List.mem_append_right _ hname)
  have hchars : r.text.toList = commaText (·.text.toList) r.pattern ++
      (' ' :: (['-','>'] ++ (' ' :: (r.result.text.toList ++ [';'])))) := by
    simp [Rule.text, Item.toList_listText]
  have hsemicolon : Writes [] [';'] [] (Sign .semicolon) := .sign rfl
  have hright := (hsemicolon.behind (hresult.writes [';'] (ends_cons (by decide) []))).cons_blank
    (by simpa using hresult.begins [';'])
  have harrow : Writes [] ['-','>'] (' ' :: (r.result.text.toList ++ [';']) ++ [])
    (Sign .arrow) := .word rfl (by decide) fun t hk _ => ⟨t,rfl,hk⟩
  have hrest := (harrow.before hright).cons_blank (Item.stopsAt_cons (by decide) _)
  rw [hchars, Rule.quotes]
  refine ((writes_commaText hitems hp (ends_cons (by decide) _)).append hrest).mono ?_
  rintro _ ⟨us,_,rfl,⟨pattern,hus,hpattern⟩,_,_,rfl,⟨arrow,rfl,ha⟩,vs,_,rfl,⟨result,hvs,hsame⟩,
    semicolon,rfl,hs⟩
  exact ⟨_,.intro hus ha hvs hs,by simp [Rule.placeless, hpattern, hsame]⟩

end TreeRules
