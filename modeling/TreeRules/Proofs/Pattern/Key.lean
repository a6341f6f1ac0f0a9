import TreeRules.Pattern.Printer
import TreeRules.Proofs.Pattern.Parts
import TreeRules.Proofs.Text.Quote

/-! Canonical texts determine items. If types are named by identifiers, two items of one canonical
text differ in places and in their own modes only, so sharing a matcher by that text is sound. -/
namespace TreeRules
open Text

namespace Item

/-- What can follow an item: the end, a comma, or something that closes. -/
def Closes (r : List Char) : Prop := ∀ c ∈ r.head?, c ∈ [',',')',']','\x7d']

lemma closes_nil : Closes [] := by simp [Closes]

lemma closes_cons {c : Char} (h : c ∈ [',',')',']','\x7d']) (r : List Char) : Closes (c :: r) := by
  simpa [Closes] using h

/-- No closing character belongs to a class that has none of the four. -/
lemma Closes.stopsAt {r : List Char} (h : Closes r) {p : Char → Bool}
    (hp : [',',')',']','\x7d'].any p = false) : StopsAt p r := by
  intro c hc
  simpa using List.any_eq_false.mp hp c (h c hc)

lemma Closes.ne_cons {r : List Char} (h : Closes r) {c : Char} (hc : c ∉ [',',')',']','\x7d'])
    (r' : List Char) : r ≠ c :: r' := by
  rintro rfl
  exact hc (h c (by simp))

lemma stopsAt_cons {p : Char → Bool} {c : Char} (h : p c = false) (r : List Char) :
    StopsAt p (c :: r) := by simpa [StopsAt] using h

/-- A written hole determines the hole, if no digit follows. -/
lemma holeText_append_inj {a b : Hole} {r r' : List Char} (hr : StopsAt Char.isDigit r)
    (hr' : StopsAt Char.isDigit r') (h : a.text.toList ++ r = b.text.toList ++ r') :
    a = b ∧ r = r' := by
  simp only [Hole.text, String.toList_append, List.append_assoc,
    Nat.toString_eq_ofList_toDigits, String.toList_ofList] at h
  have hd : ∀ n : Nat, ∀ c ∈ Nat.toDigits 10 n, c.isDigit = true :=
    fun n c hc => Nat.isDigit_of_mem_toDigits (by omega) (by omega) hc
  obtain ⟨hn,hr⟩ := run_append_inj (hd _) (hd _) hr hr' (List.append_cancel_left h)
  have hab : a.number = b.number :=
    UInt32.toNat_inj.mp (toDigits_inj (by omega) (by omega) hn)
  cases a
  cases b
  exact ⟨congrArg Hole.mk hab,hr⟩

lemma holeText_ne {a : Hole} {c : Char} (hc : c ≠ '#') (r r' : List Char) :
    a.text.toList ++ r ≠ c :: r' := by
  intro h
  simp only [Hole.text, String.toList_append, List.append_assoc] at h
  exact hc (List.cons.inj h).1.symm

lemma dots_append_inj {e e' : Bool} {r r' : List Char} (hr : Closes r) (hr' : Closes r')
    (h : (dots e).toList ++ r = (dots e').toList ++ r') : e = e' ∧ r = r' := by
  have hdot : ∀ t, r ≠ '.' :: t ∧ r' ≠ '.' :: t :=
    fun t => ⟨hr.ne_cons (by decide) t,hr'.ne_cons (by decide) t⟩
  cases e <;> cases e' <;> simp [dots] at h
  · exact ⟨rfl,h⟩
  · exact absurd h (hdot _).1
  · exact absurd h.symm (hdot _).2
  · exact ⟨rfl,h⟩

lemma stopsAt_dots (e : Bool) {r : List Char} (hr : Closes r) :
    StopsAt Char.isDigit ((dots e).toList ++ r) := by
  cases e
  · simpa [dots] using hr.stopsAt (by decide)
  · simpa [dots] using stopsAt_cons (by decide) _

/-- A written datum determines the datum, before the bracket that closes it. -/
lemma datumText_append_inj {a b : Datum} {r r' : List Char}
    (h : a.text.toList ++ '>' :: r = b.text.toList ++ '>' :: r') : a = b ∧ r = r' := by
  have hs : ∀ r, StopsAt Char.isDigit ('>' :: r) := stopsAt_cons (by decide)
  have hq : ∀ (s : String) (r : List Char), ∃ r', (quoted s).toList ++ r = '"' :: r' := by
    intro s r
    exact ⟨_,by simp only [quoted, String.toList_append, List.append_assoc]; rfl⟩
  cases a with
  | hole a =>
    cases b with
    | hole b =>
      obtain ⟨rfl,hr⟩ := holeText_append_inj (hs r) (hs r') h
      exact ⟨rfl,(List.cons.inj hr).2⟩
    | literal s =>
      obtain ⟨t,ht⟩ := hq s ('>' :: r')
      exact absurd (h.trans ht) (holeText_ne (by decide) _ _)
  | literal s =>
    cases b with
    | hole b =>
      obtain ⟨t,ht⟩ := hq s ('>' :: r)
      exact absurd (h.symm.trans ht) (holeText_ne (by decide) _ _)
    | literal s' =>
      obtain ⟨rfl,hr⟩ := quoted_append_inj h
      exact ⟨rfl,(List.cons.inj hr).2⟩

/-- A data position determines what stands in it, if no other one follows. -/
lemma block_append_inj {a b : Option Datum} {r r' : List Char} (hr : ∀ t, r ≠ '<' :: t)
    (hr' : ∀ t, r' ≠ '<' :: t)
    (h : (Datum.block a).toList ++ r = (Datum.block b).toList ++ r') : a = b ∧ r = r' := by
  cases a with
  | none =>
    cases b with
    | none => exact ⟨rfl,by simpa [Datum.block] using h⟩
    | some b => exact absurd (by simpa [Datum.block] using h) (hr _)
  | some a =>
    cases b with
    | none => exact absurd (by simpa [Datum.block] using h.symm) (hr' _)
    | some b =>
      simp only [Datum.block, String.toList_append, List.append_assoc] at h
      obtain ⟨rfl,hr⟩ := datumText_append_inj (List.append_cancel_left h)
      exact ⟨rfl,hr⟩

/-- The canonical text of the item without its exclamation mark. -/
def bare (i : Item) : String := (i.withTag (.plain .none)).body

@[simp] lemma bang_plain (span : Span) : (Tag.plain span).bang = "" := rfl

lemma body_eq_bang_append (i : Item) : i.body = i.tag.bang ++ i.bare := by
  cases i <;> simp [bare, withTag, body, tag, String.append_assoc]

/-- The character that an item begins with, nothing if that is a word. -/
def lead : Item → Option Char
  | fixed _ _ _ _ | typedHole _ _ _ _ => none
  | untypedHole _ _ _ => some '#'
  | symbolRange _ _ _ _ => some '\''
  | anyOf _ _ => some '|'
  | allOf _ _ => some '&'
  | rest _ => some '.'

/-- What `lead` says of an item can be read off the first character. -/
def leadOf (c : Char) : Option Char := if Lexer.isIdStart c then none else some c

lemma bare_eq_cons {i : Item} (h : i.HasIdentifiers) :
    ∃ c cs, i.bare.toList = c :: cs ∧ leadOf c = i.lead := by
  have hword : ∀ name, i.type? = some name → ∃ c cs, name.toList = c :: cs ∧ leadOf c = none := by
    intro name hn
    obtain ⟨c,cs,hname,hc,-⟩ := h.type hn
    exact ⟨c,cs,hname,by simp [leadOf,hc]⟩
  cases i with
  | fixed t type data children =>
    obtain ⟨c,cs,hname,hc⟩ := hword type rfl
    exact ⟨c,_,by simp [bare,withTag,body,hname]; rfl,hc⟩
  | typedHole t type hole ellipsis =>
    obtain ⟨c,cs,hname,hc⟩ := hword type rfl
    exact ⟨c,_,by simp [bare,withTag,body,hname]; rfl,hc⟩
  | untypedHole t hole ellipsis =>
    exact ⟨'#',_,by simp [bare,withTag,body,Hole.text]; rfl,rfl⟩
  | symbolRange t first last hole =>
    exact ⟨'\'',_,by simp [bare,withTag,body,quotedChar]; rfl,rfl⟩
  | anyOf t items => exact ⟨'|',_,by simp [bare,withTag,body]; rfl,rfl⟩
  | allOf t items => exact ⟨'&',_,by simp [bare,withTag,body]; rfl,rfl⟩
  | rest t => exact ⟨'.',_,by simp [bare,withTag,body]; rfl,rfl⟩

lemma lead_mem (i : Item) :
    i.lead ∈ [none,some '#',some '\'',some '|',some '&',some '.'] := by
  cases i <;> simp [lead]

/-- Neither a mark nor a bracket is the first character of an item. -/
lemma lead_ne {i : Item} {c : Char} (hc : c ∈ ['!','[','\x7b',')']) : leadOf c ≠ i.lead := by
  have h : ['!','[','\x7b',')'].all fun c =>
      [none,some '#',some '\'',some '|',some '&',some '.'].all fun l => leadOf c != l := by decide
  simp only [List.all_eq_true, bne_iff_ne] at h
  exact h c hc i.lead i.lead_mem

lemma bare_ne_cons {i : Item} (h : i.HasIdentifiers) {c : Char} (hc : c ∈ ['!','[','\x7b',')'])
    (r r' : List Char) : i.bare.toList ++ r ≠ c :: r' := by
  obtain ⟨d,ds,hd,hl⟩ := bare_eq_cons h
  intro he
  rw [hd] at he
  obtain ⟨rfl,-⟩ := List.cons.inj he
  exact lead_ne hc hl

lemma body_ne_cons {i : Item} (h : i.HasIdentifiers) {c : Char} (hc : c ∈ ['[','\x7b',')'])
    (r r' : List Char) : i.body.toList ++ r ≠ c :: r' := by
  rw [body_eq_bang_append]
  by_cases hn : i.tag.negated
  · intro he
    simp only [Tag.bang, hn, if_true, String.toList_append, List.append_assoc] at he
    have hb : '!' = c := (List.cons.inj he).1
    subst hb
    simp at hc
  · simpa [Tag.bang, hn] using bare_ne_cons h (List.mem_cons_of_mem _ hc) r r'

/-- The exclamation mark of an item can be told from the rest of its canonical text. -/
lemma body_append_inj {i j : Item} (hi : i.HasIdentifiers) (hj : j.HasIdentifiers)
    {r r' : List Char} (h : i.body.toList ++ r = j.body.toList ++ r') :
    i.negated = j.negated ∧ i.bare.toList ++ r = j.bare.toList ++ r' := by
  rw [body_eq_bang_append, body_eq_bang_append j] at h
  simp only [negated]
  cases hni : i.tag.negated <;> cases hnj : j.tag.negated <;>
    simp [Tag.bang, hni, hnj] at h
  · exact ⟨rfl,h⟩
  · exact absurd h (bare_ne_cons hi (by simp) _ _)
  · exact absurd h.symm (bare_ne_cons hj (by simp) _ _)
  · exact ⟨rfl,h⟩

/-- Items of one text begin alike. -/
lemma lead_eq {i j : Item} (hi : i.HasIdentifiers) (hj : j.HasIdentifiers) {r r' : List Char}
    (h : i.bare.toList ++ r = j.bare.toList ++ r') : i.lead = j.lead := by
  obtain ⟨c,cs,hc,hl⟩ := bare_eq_cons hi
  obtain ⟨d,ds,hd,hl'⟩ := bare_eq_cons hj
  rw [hc,hd] at h
  obtain ⟨rfl,-⟩ := List.cons.inj h
  exact hl.symm.trans hl'

/-- What the text of a node has behind its type. -/
lemma stopsAt_fixedTail (data : Option Datum) (children : List Item) {r : List Char}
    (hr : Closes r) : StopsAt Lexer.isIdChar ((Datum.block data).toList ++
      ((parenthesized children (listText children)).toList ++ r)) := by
  cases data with
  | some d => simpa [Datum.block] using stopsAt_cons (by decide) _
  | none =>
    cases children with
    | nil => simpa [Datum.block, parenthesized] using hr.stopsAt (by decide)
    | cons i items => simpa [Datum.block, parenthesized] using stopsAt_cons (by decide) _

lemma parenthesized_ne_angle (children : List Item) {r : List Char} (hr : Closes r)
    (t : List Char) : (parenthesized children (listText children)).toList ++ r ≠ '<' :: t := by
  cases children with
  | nil => simpa [parenthesized] using hr.ne_cons (by decide) t
  | cons i items => simp [parenthesized]

/-- A word is found again before what can follow a type. -/
lemma word_append_inj {a b : String} (ha : IsIdentifier a) (hb : IsIdentifier b)
    {r r' : List Char} (hr : StopsAt Lexer.isIdChar r) (hr' : StopsAt Lexer.isIdChar r')
    (h : a.toList ++ r = b.toList ++ r') : a = b ∧ r = r' := by
  have hall : ∀ {name : String}, IsIdentifier name →
      ∀ c ∈ name.toList, Lexer.isIdChar c = true := by
    rintro name ⟨c,cs,hn,hc,hcs⟩ d hd
    rw [hn] at hd
    rcases List.mem_cons.mp hd with rfl | hd
    · simp only [Lexer.isIdStart, Bool.or_eq_true] at hc
      simp only [Lexer.isIdChar, Char.isAlphanum, Bool.or_eq_true]
      tauto
    · exact hcs d hd
  obtain ⟨hab,hr⟩ := run_append_inj (hall ha) (hall hb) hr hr' h
  exact ⟨String.toList_inj.mp hab,hr⟩

/-- The text of an item determines the item up to its place, if its canonical text does. -/
lemma text_append_inj {i j : Item} (hi : i.HasIdentifiers) (hj : j.HasIdentifiers)
    (ih : ∀ r r', Closes r → Closes r' → i.body.toList ++ r = j.body.toList ++ r' →
      i.core = j.core ∧ r = r')
    {r r' : List Char} (hr : Closes r) (hr' : Closes r')
    (h : i.text.toList ++ r = j.text.toList ++ r') : i.placeless = j.placeless ∧ r = r' := by
  have hwhole : ∀ {i j : Item}, i.core = j.core → i.mode = j.mode → i.placeless = j.placeless := by
    intro i j hc hm
    have he : ∀ k : Item, k.placeless = k.core.withTag ⟨k.mode,k.negated,.none⟩ := by
      intro k
      cases k <;> rfl
    have hn : i.negated = j.negated := by
      have := congrArg (fun k => k.tag.negated) hc
      simpa [core] using this
    rw [he i, he j, hc, hm, hn]
  have hsq : ∀ r, Closes (']' :: r) := closes_cons (by simp)
  have hbr : ∀ r, Closes ('\x7d' :: r) := closes_cons (by simp)
  cases hm : i.mode <;> cases hm' : j.mode <;>
    simp only [text, hm, hm', Mode.enclose, String.toList_append, List.append_assoc] at h
  · obtain ⟨hc,hr⟩ := ih r r' hr hr' h
    exact ⟨hwhole hc (hm.trans hm'.symm),hr⟩
  · exact absurd h (body_ne_cons hi (c := '[') (by simp) _ _)
  · exact absurd h (body_ne_cons hi (c := '\x7b') (by simp) _ _)
  · exact absurd h.symm (body_ne_cons hj (c := '[') (by simp) _ _)
  · obtain ⟨hc,hr⟩ := ih _ _ (hsq r) (hsq r') (List.append_cancel_left h)
    exact ⟨hwhole hc (hm.trans hm'.symm),(List.cons.inj hr).2⟩
  · simp at h
  · exact absurd h.symm (body_ne_cons hj (c := '\x7b') (by simp) _ _)
  · simp at h
  · obtain ⟨hc,hr⟩ := ih _ _ (hbr r) (hbr r') (List.append_cancel_left h)
    exact ⟨hwhole hc (hm.trans hm'.symm),(List.cons.inj hr).2⟩

/-- What stands behind the first of several items up to the parenthesis that closes them. -/
def tailText : List Item → List Char → List Char
  | [], r => ')' :: r
  | i :: items, r => ',' :: ' ' :: ((listText (i :: items)).toList ++ ')' :: r)

lemma closes_tailText (items : List Item) (r : List Char) : Closes (tailText items r) := by
  cases items <;> exact closes_cons (by simp) _

lemma listText_cons (i : Item) (items : List Item) (r : List Char) :
    (listText (i :: items)).toList ++ ')' :: r = i.text.toList ++ tailText items r := by
  cases items with
  | nil => rfl
  | cons j items => simp [listText, text, tailText]

lemma text_ne_paren {i : Item} (hi : i.HasIdentifiers) (r r' : List Char) :
    i.text.toList ++ r ≠ ')' :: r' := by
  cases hm : i.mode <;> simp only [text, hm, Mode.enclose]
  · exact body_ne_cons hi (by simp) r r'
  · simp
  · simp

/-- A list of items up to its closing parenthesis determines the items up to their places. -/
lemma listText_append_inj {items items' : List Item} (hi : ∀ i ∈ items, i.HasIdentifiers)
    (hi' : ∀ i ∈ items', i.HasIdentifiers)
    (ih : ∀ i ∈ items, ∀ j : Item, j.HasIdentifiers → ∀ r r', Closes r → Closes r' →
      i.body.toList ++ r = j.body.toList ++ r' → i.core = j.core ∧ r = r')
    {r r' : List Char}
    (h : (listText items).toList ++ ')' :: r = (listText items').toList ++ ')' :: r') :
    items.map placeless = items'.map placeless ∧ r = r' := by
  induction items generalizing items' with
  | nil =>
    cases items' with
    | nil => exact ⟨rfl,by simpa [listText] using h⟩
    | cons j items' =>
      rw [listText_cons] at h
      exact absurd h.symm (text_ne_paren (hi' j (by simp)) _ _)
  | cons i items ihi =>
    cases items' with
    | nil =>
      rw [listText_cons] at h
      exact absurd h (text_ne_paren (hi i (by simp)) _ _)
    | cons j items' =>
      rw [listText_cons,listText_cons] at h
      obtain ⟨hij,ht⟩ := text_append_inj (hi i (by simp)) (hi' j (by simp))
        (ih i (by simp) j (hi' j (by simp))) (closes_tailText _ _) (closes_tailText _ _) h
      -- behind the first items there is a parenthesis in both texts, or a comma in both
      cases items with
      | nil =>
        cases items' with
        | nil => exact ⟨by simp [hij],by simpa [tailText] using ht⟩
        | cons k items' => simp [tailText] at ht
      | cons k items =>
        cases items' with
        | nil => simp [tailText] at ht
        | cons l items' =>
          simp only [tailText, List.cons.injEq, true_and] at ht
          obtain ⟨hrest,hr⟩ := ihi (fun i hi₁ => hi i (by simp [hi₁]))
            (fun i hi₁ => hi' i (by simp [hi₁])) (fun i hi₁ => ih i (by simp [hi₁])) ht
          exact ⟨by rw [List.map_cons, List.map_cons (a := j), hij, hrest],hr⟩

/-- What the induction knows of an item: its canonical text determines its core. -/
def BodyTells (i : Item) : Prop := i.HasIdentifiers → ∀ j : Item, j.HasIdentifiers →
  ∀ r r', Closes r → Closes r' → i.body.toList ++ r = j.body.toList ++ r' →
    i.core = j.core ∧ r = r'

lemma listText_tells {items items' : List Item} (ih : ∀ i ∈ items, i.BodyTells)
    (hi : ∀ i ∈ items, i.HasIdentifiers) (hi' : ∀ i ∈ items', i.HasIdentifiers) {r r' : List Char}
    (h : (listText items).toList ++ ')' :: r = (listText items').toList ++ ')' :: r') :
    items.map placeless = items'.map placeless ∧ r = r' :=
  listText_append_inj hi hi' (fun i hm => ih i hm (hi i hm)) h

lemma parenthesized_tells {children children' : List Item} (ih : ∀ i ∈ children, i.BodyTells)
    (hi : ∀ i ∈ children, i.HasIdentifiers) (hi' : ∀ i ∈ children', i.HasIdentifiers)
    {r r' : List Char} (hr : Closes r) (hr' : Closes r')
    (h : (parenthesized children (listText children)).toList ++ r =
      (parenthesized children' (listText children')).toList ++ r') :
    children.map placeless = children'.map placeless ∧ r = r' := by
  cases children with
  | nil =>
    cases children' with
    | nil => exact ⟨rfl,by simpa [parenthesized] using h⟩
    | cons j items' => exact absurd (by simpa [parenthesized] using h) (hr.ne_cons (by decide) _)
  | cons i items =>
    cases children' with
    | nil => exact absurd (by simpa [parenthesized] using h.symm) (hr'.ne_cons (by decide) _)
    | cons j items' =>
      simp only [parenthesized, List.isEmpty_cons, Bool.false_eq_true, if_false,
        String.toList_append, List.append_assoc] at h
      exact listText_tells ih hi hi' (List.append_cancel_left h)

/-- Behind the type of a node there is no number sign, so a node is no typed hole. -/
lemma fixed_ne_typedHole {t t' : Tag} {type type' : String} {data : Option Datum}
    {children : List Item} {hole : Hole} {ellipsis : Bool}
    (hi : (fixed t type data children).HasIdentifiers)
    (hj : (typedHole t' type' hole ellipsis).HasIdentifiers) {r : List Char} (hr : Closes r)
    (r' : List Char) : (fixed t type data children).bare.toList ++ r ≠
      (typedHole t' type' hole ellipsis).bare.toList ++ r' := by
  intro h
  simp only [bare, withTag, body, bang_plain, String.empty_append, String.toList_append,
    List.append_assoc] at h
  obtain ⟨-,htail⟩ := word_append_inj (hi.type rfl) (hj.type rfl)
    (stopsAt_fixedTail data children hr) (by simpa [Hole.text] using stopsAt_cons (by decide) _) h
  cases data with
  | some d => simp [Datum.block, Hole.text] at htail
  | none =>
    cases children with
    | nil =>
      simp only [Datum.block, parenthesized, Hole.text, List.isEmpty_nil, if_true,
        String.toList_empty, List.nil_append, String.toList_append, List.append_assoc] at htail
      exact hr.ne_cons (c := '#') (by decide) _ htail
    | cons i items => simp [Datum.block, parenthesized, Hole.text] at htail

lemma bodyTells_fixed (t : Tag) (type : String) (data : Option Datum) (children : List Item)
    (ih : ∀ i ∈ children, i.BodyTells) : (fixed t type data children).BodyTells := by
  intro hi j hj r r' hr hr' hb
  obtain ⟨hn,hbare⟩ := body_append_inj hi hj hb
  have hl := lead_eq hi hj hbare
  cases j <;> simp only [lead, reduceCtorEq] at hl
  case fixed t' type' data' children' =>
    simp only [bare, withTag, body, bang_plain, String.empty_append, String.toList_append,
      List.append_assoc] at hbare
    obtain ⟨htype,htail⟩ := word_append_inj (hi.type rfl) (hj.type rfl)
      (stopsAt_fixedTail data children hr) (stopsAt_fixedTail data' children' hr') hbare
    obtain ⟨hdata,hrest⟩ := block_append_inj (parenthesized_ne_angle children hr)
      (parenthesized_ne_angle children' hr') htail
    have hc : ∀ i ∈ children, i.HasIdentifiers := fun i h => hi.inner h
    have hc' : ∀ i ∈ children', i.HasIdentifiers := fun i h => hj.inner h
    obtain ⟨hch,hr⟩ := parenthesized_tells ih hc hc' hr hr' hrest
    simp only [negated, tag] at hn
    exact ⟨by simp [core, placeless, withTag, negated, tag, hn, htype, hdata, hch],hr⟩
  case typedHole t' type' hole' ellipsis' => exact absurd hbare (fixed_ne_typedHole hi hj hr r')

lemma bodyTells_typedHole (t : Tag) (type : String) (hole : Hole) (ellipsis : Bool) :
    (typedHole t type hole ellipsis).BodyTells := by
  intro hi j hj r r' hr hr' hb
  obtain ⟨hn,hbare⟩ := body_append_inj hi hj hb
  have hl := lead_eq hi hj hbare
  cases j <;> simp only [lead, reduceCtorEq] at hl
  case fixed t' type' data' children' =>
    exact absurd hbare.symm (fixed_ne_typedHole hj hi hr' r)
  case typedHole t' type' hole' ellipsis' =>
    simp only [bare, withTag, body, bang_plain, String.empty_append, String.toList_append,
      List.append_assoc] at hbare
    have hs : ∀ (a : Hole) (r : List Char), StopsAt Lexer.isIdChar (a.text.toList ++ r) := by
      intro a r
      simpa [Hole.text] using stopsAt_cons (by decide) _
    obtain ⟨htype,htail⟩ := word_append_inj (hi.type rfl) (hj.type rfl) (hs _ _) (hs _ _) hbare
    obtain ⟨hhole,hdots⟩ := holeText_append_inj (stopsAt_dots _ hr) (stopsAt_dots _ hr') htail
    obtain ⟨hell,hr⟩ := dots_append_inj hr hr' hdots
    simp only [negated, tag] at hn
    exact ⟨by simp [core, placeless, withTag, negated, tag, hn, htype, hhole, hell],hr⟩

lemma bodyTells_untypedHole (t : Tag) (hole : Hole) (ellipsis : Bool) :
    (untypedHole t hole ellipsis).BodyTells := by
  intro hi j hj r r' hr hr' hb
  obtain ⟨hn,hbare⟩ := body_append_inj hi hj hb
  have hl := lead_eq hi hj hbare
  cases j <;> simp [lead] at hl
  case untypedHole t' hole' ellipsis' =>
    simp only [bare, withTag, body, bang_plain, String.empty_append, String.toList_append,
      List.append_assoc] at hbare
    obtain ⟨hhole,hdots⟩ := holeText_append_inj (stopsAt_dots _ hr) (stopsAt_dots _ hr') hbare
    obtain ⟨hell,hr⟩ := dots_append_inj hr hr' hdots
    simp only [negated, tag] at hn
    exact ⟨by simp [core, placeless, withTag, negated, tag, hn, hhole, hell],hr⟩

lemma bodyTells_symbolRange (t : Tag) (first last : Char) (hole : Option Hole) :
    (symbolRange t first last hole).BodyTells := by
  intro hi j hj r r' hr hr' hb
  obtain ⟨hn,hbare⟩ := body_append_inj hi hj hb
  have hl := lead_eq hi hj hbare
  cases j <;> simp [lead] at hl
  case symbolRange t' first' last' hole' =>
    simp only [bare, withTag, body, bang_plain, String.empty_append, String.toList_append,
      List.append_assoc] at hbare
    obtain ⟨hfirst,hdots⟩ := quotedChar_append_inj hbare
    obtain ⟨hlast,hblock⟩ := quotedChar_append_inj (List.append_cancel_left hdots)
    obtain ⟨hdata,hr⟩ := block_append_inj (hr.ne_cons (by decide)) (hr'.ne_cons (by decide)) hblock
    have hhole : hole = hole' := by
      cases hole <;> cases hole' <;> simp at hdata ⊢
      exact hdata
    simp only [negated, tag] at hn
    exact ⟨by simp [core, placeless, withTag, negated, tag, hn, hfirst, hlast, hhole],hr⟩

lemma bodyTells_anyOf (t : Tag) (items : List Item) (ih : ∀ i ∈ items, i.BodyTells) :
    (anyOf t items).BodyTells := by
  intro hi j hj r r' hr hr' hb
  obtain ⟨hn,hbare⟩ := body_append_inj hi hj hb
  have hl := lead_eq hi hj hbare
  cases j <;> simp [lead] at hl
  case anyOf t' items' =>
    simp only [bare, withTag, body, bang_plain, String.empty_append, String.toList_append,
      List.append_assoc] at hbare
    have hc : ∀ i ∈ items, i.HasIdentifiers := fun i h => hi.inner h
    have hc' : ∀ i ∈ items', i.HasIdentifiers := fun i h => hj.inner h
    obtain ⟨hitems,hr⟩ := listText_tells ih hc hc' (List.append_cancel_left hbare)
    simp only [negated, tag] at hn
    exact ⟨by simp [core, placeless, withTag, negated, tag, hn, hitems],hr⟩

lemma bodyTells_allOf (t : Tag) (items : List Item) (ih : ∀ i ∈ items, i.BodyTells) :
    (allOf t items).BodyTells := by
  intro hi j hj r r' hr hr' hb
  obtain ⟨hn,hbare⟩ := body_append_inj hi hj hb
  have hl := lead_eq hi hj hbare
  cases j <;> simp [lead] at hl
  case allOf t' items' =>
    simp only [bare, withTag, body, bang_plain, String.empty_append, String.toList_append,
      List.append_assoc] at hbare
    have hc : ∀ i ∈ items, i.HasIdentifiers := fun i h => hi.inner h
    have hc' : ∀ i ∈ items', i.HasIdentifiers := fun i h => hj.inner h
    obtain ⟨hitems,hr⟩ := listText_tells ih hc hc' (List.append_cancel_left hbare)
    simp only [negated, tag] at hn
    exact ⟨by simp [core, placeless, withTag, negated, tag, hn, hitems],hr⟩

lemma bodyTells_rest (t : Tag) : (rest t).BodyTells := by
  intro hi j hj r r' hr hr' hb
  obtain ⟨hn,hbare⟩ := body_append_inj hi hj hb
  have hl := lead_eq hi hj hbare
  cases j <;> simp [lead] at hl
  case rest t' =>
    simp only [negated, tag] at hn
    exact ⟨by simp [core, placeless, withTag, negated, tag, hn],List.append_cancel_left hbare⟩

/-- The canonical text of an item determines the item up to places and its own mode. -/
theorem bodyTells (i : Item) : i.BodyTells := by
  induction i using Item.ind with
  | fixed t type data children ih => exact bodyTells_fixed t type data children ih
  | typedHole t type hole ellipsis => exact bodyTells_typedHole t type hole ellipsis
  | untypedHole t hole ellipsis => exact bodyTells_untypedHole t hole ellipsis
  | symbolRange t first last hole => exact bodyTells_symbolRange t first last hole
  | anyOf t items ih => exact bodyTells_anyOf t items ih
  | allOf t items ih => exact bodyTells_allOf t items ih
  | rest t => exact bodyTells_rest t

theorem core_eq_of_body_eq {i j : Item} (hi : i.HasIdentifiers) (hj : j.HasIdentifiers)
    (h : i.body = j.body) : i.core = j.core :=
  (bodyTells i hi j hj [] [] closes_nil closes_nil (by rw [h])).1

end Item
end TreeRules
