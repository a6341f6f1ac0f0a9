import TreeRules.Proofs.Parser.Faulty
import TreeRules.Proofs.Rule.Words
import TreeRules.Proofs.Token.Escape
import TreeRules.Proofs.Token.Pieces

/-! Written text before the lexer and the grammar: words, leaves, and lists of written things. Each
is read back by itself if what follows it cannot belong to it. -/
namespace TreeRules

open Grammar Lexer
open Text (ByCode StopsAt)
open Token (Kind)

/-- No quoted character is written by its code. -/
def Clean (quotes : List Quote) : Prop := ∀ q ∈ quotes, ¬ ByCode q.delimiter q.char

/-- What the lexer makes of `chars` before `rest`. If the quotes are clean, then the pieces are those
of `chars`, of which `P` tells, blanks left out, and behind them those of `rest`. Otherwise a piece is
faulty. -/
structure Writes (quotes : List Quote) (chars rest : List Char) (P : List Token → Prop) : Prop where
  reads : Clean quotes → ∀ offset, ∃ ts,
    pieces 0 offset (chars ++ rest) = ts ++ pieces 0 (offset + byteLength chars) rest ∧
      (∀ t ∈ ts, t.kind ≠ .garbage) ∧ P (ts.filter (!·.isTrivia))
  spoils : ¬ Clean quotes → ∀ offset, ∃ t ∈ pieces 0 offset (chars ++ rest), t.Faulty

/-- Tokens of which `P` tells, and behind them tokens of which `Q` tells. -/
def Then (P Q : List Token → Prop) (ts : List Token) : Prop :=
  ∃ us vs, ts = us ++ vs ∧ P us ∧ Q vs

/-- A single token. -/
def Sign (kind : Kind) (ts : List Token) : Prop := ∃ t : Token, ts = [t] ∧ t.kind = kind

/-- A single word that names something. -/
def Name (name : String) (ts : List Token) : Prop :=
  ∃ t : Token, ts = [t] ∧ t.kind = .id ∧ t.text = name

lemma clean_nil : Clean [] := fun _ h => (List.not_mem_nil h).elim

lemma clean_append {qs qs' : List Quote} : Clean (qs ++ qs') ↔ Clean qs ∧ Clean qs' :=
  List.forall_mem_append

namespace Writes

variable {qs qs' : List Quote} {chars chars' rest : List Char} {P Q : List Token → Prop}
  {c : Char} {kind : Kind}

lemma mono (h : Writes qs chars rest P) (hPQ : ∀ ts, P ts → Q ts) : Writes qs chars rest Q :=
  ⟨fun hq offset =>
    let ⟨ts,hts,hg,hP⟩ := h.reads hq offset
    ⟨ts,hts,hg,hPQ _ hP⟩,h.spoils⟩

lemma nil (hP : P []) : Writes [] [] rest P :=
  ⟨fun _ _ => ⟨[],rfl,fun _ h => (List.not_mem_nil h).elim,hP⟩,fun h => absurd clean_nil h⟩

/-- Texts one behind the other. -/
lemma append (h : Writes qs chars (chars' ++ rest) P) (h' : Writes qs' chars' rest Q) :
    Writes (qs ++ qs') (chars ++ chars') rest (Then P Q) := by
  constructor
  · intro hq offset
    obtain ⟨hq,hq'⟩ := clean_append.mp hq
    obtain ⟨us,hus,hgu,hP⟩ := h.reads hq offset
    obtain ⟨vs,hvs,hgv,hQ⟩ := h'.reads hq' (offset + byteLength chars)
    refine ⟨us ++ vs,?_,List.forall_mem_append.mpr ⟨hgu,hgv⟩,_,_,List.filter_append _ _,hP,hQ⟩
    rw [List.append_assoc, hus, hvs, byteLength_append, List.append_assoc, Nat.add_assoc]
  · intro hq offset
    rw [List.append_assoc]
    by_cases hfirst : Clean qs
    · -- the second text is spoiled, and its pieces come behind those of the first
      obtain ⟨us,hus,-,-⟩ := h.reads hfirst offset
      obtain ⟨t,ht,hf⟩ := h'.spoils (fun hq' => hq (clean_append.mpr ⟨hfirst,hq'⟩))
        (offset + byteLength chars)
      exact ⟨t,by rw [hus]; exact List.mem_append_right us ht,hf⟩
    · exact h.spoils hfirst offset

/-- A text without quotes before another. -/
lemma before (h : Writes [] chars (chars' ++ rest) P) (h' : Writes qs chars' rest Q) :
    Writes qs (chars ++ chars') rest (Then P Q) := h.append h'

/-- A text without quotes behind another. -/
lemma behind (h' : Writes [] chars' rest Q) (h : Writes qs chars (chars' ++ rest) P) :
    Writes qs (chars ++ chars') rest (Then P Q) := by
  rw [← List.append_nil qs]
  exact h.append h'

/-- A single word. -/
lemma word {cs : List Char} (h : scan c (cs ++ rest) = ⟨kind,cs.length + 1⟩)
    (hk : kind ∉ [.whitespace,.lineComment,.garbage])
    (hP : ∀ t : Token, t.kind = kind → t.text = String.ofList (c :: cs) → P [t]) :
    Writes [] (c :: cs) rest P := by
  refine ⟨fun _ offset => ?_,fun h => absurd clean_nil h⟩
  obtain ⟨t,rfl,htext,ht⟩ := pieces_word h offset
  simp only [List.mem_cons, List.not_mem_nil, or_false, not_or] at hk
  have htrivia : t.isTrivia = false := by
    unfold Token.isTrivia Kind.isTrivia
    split
    · next hw => exact absurd hw hk.1
    · next hl => exact absurd hl hk.2.1
    · rfl
  refine ⟨[t],ht,by simpa using hk.2.2,?_⟩
  simpa [htrivia] using hP t rfl htext

lemma punctuation?_notMem (h : punctuation? c = some kind) :
    kind ∉ [.whitespace,.lineComment,.garbage] := by
  revert h
  fun_cases punctuation? c <;> rintro ⟨⟩ <;> decide

lemma sign (h : punctuation? c = some kind) : Writes [] [c] rest (Sign kind) :=
  word (scan_punctuation h _) (punctuation?_notMem h) fun t ht _ => ⟨t,rfl,ht⟩

/-- A blank means nothing. -/
lemma cons_blank (h : Writes qs chars rest P) (hstop : StopsAt isBlank (chars ++ rest)) :
    Writes qs (' ' :: chars) rest P := by
  have hscan : scan ' ' ([] ++ (chars ++ rest)) = ⟨.whitespace,1⟩ := scan_blank hstop
  have hblank : Writes [] [' '] (chars ++ rest) (· = []) := by
    refine ⟨fun _ offset => ?_,fun h => absurd clean_nil h⟩
    obtain ⟨t,hk,-,ht⟩ := pieces_word hscan offset
    refine ⟨[t],ht,by simp [hk],?_⟩
    simp [Token.isTrivia, hk, Kind.isTrivia]
  refine (hblank.before h).mono ?_
  rintro _ ⟨_,us,rfl,rfl,hus⟩
  exact hus

end Writes

/-! Leaves. -/

section Leaves

variable {rest : List Char}

lemma writes_typeName {name : String} (h : IsTypeName name) (hstop : StopsAt isIdChar rest) :
    Writes [] name.toList rest (Name name) := by
  obtain ⟨⟨c,cs,hname,hc,hcs⟩,hl,hn⟩ := h
  have hkind := wordKind_eq_id hl hn
  rw [hname] at hkind ⊢
  refine .word ((scan_word hc hcs hstop).trans (by rw [hkind])) (by decide) fun t ht htext => ?_
  rw [← hname, String.ofList_toList] at htext
  exact ⟨t,rfl,ht,htext⟩

/-- A numeral has the value of its number. -/
lemma Hole.digitsValue_toDigits (n : Nat) : digitsValue 0 (Nat.toDigits 10 n) = n := by
  induction n using Nat.strongRecOn with
  | ind n ih =>
    have hdigit : ∀ m < 10, (Nat.digitChar m).toNat - '0'.toNat = m := by decide
    rw [Nat.toDigits_eq_if (by omega)]
    split_ifs with hn
    · rw [digitsValue, List.foldl_cons, List.foldl_nil, hdigit n hn]
      omega
    · have hdiv := ih (n / 10) (Nat.div_lt_self (by omega) (by omega))
      rw [digitsValue] at hdiv ⊢
      rw [List.foldl_append, List.foldl_cons, List.foldl_nil, hdiv,
        hdigit (n % 10) (Nat.mod_lt n (by omega))]
      omega

lemma isDigit_of_mem_toDigits (n : Nat) : ∀ c ∈ Nat.toDigits 10 n, c.isDigit = true :=
  fun _ hc => Nat.isDigit_of_mem_toDigits (by omega) (by omega) hc

lemma toDigits_ne_nil (n : Nat) : Nat.toDigits 10 n ≠ [] :=
  List.length_pos_iff.mp Nat.length_toDigits_pos

/-- A written hole has the number of the hole. -/
lemma Hole.ofDigits?_toDigits (h : Hole) :
    ofDigits? (Nat.toDigits 10 h.number.toNat) = some h := by
  have hall : (Nat.toDigits 10 h.number.toNat).all Char.isDigit = true :=
    List.all_eq_true.mpr (isDigit_of_mem_toDigits _)
  rw [ofDigits?, digitsValue_toDigits, hall]
  simp [h.number.toNat_lt]

lemma Hole.toList_text (h : Hole) : h.text.toList = '#' :: Nat.toDigits 10 h.number.toNat := by
  simp [text]

lemma writes_hole (h : Hole) (hstop : StopsAt Char.isDigit rest) :
    Writes [] h.text.toList rest (HoleOf · h) := by
  rw [h.toList_text]
  refine .word (scan_hole (toDigits_ne_nil _) (isDigit_of_mem_toDigits _) hstop) (by decide) ?_
  intro t hk ht
  refine ⟨hk,?_⟩
  rw [ht, String.toList_ofList]
  exact h.ofDigits?_toDigits

lemma writes_dots (ellipsis : Bool) : Writes [] (Item.dots ellipsis).toList rest
    (DotsOf · ellipsis) := by
  cases ellipsis with
  | false => exact .nil .none
  | true =>
    change Writes [] ['.','.','.'] rest _
    exact .word rfl (by decide) fun t hk _ => .some hk

lemma literalBody_eq {t : Token} {quote : Char} {body : List Char}
    (h : t.text = String.ofList (quote :: (body ++ [quote]))) : literalBody t = body := by
  rw [literalBody, h, String.toList_ofList]
  simp

/-- A text in quotes is one literal, clean or not. -/
lemma writes_quoted (s : String) : Writes (s.toList.map (⟨'"',·⟩)) (Text.quoted s).toList rest
    (DatumOf · (.literal s)) := by
  have hchars : (Text.quoted s).toList = '"' :: ((Text.quoteChars '"' s.toList).toList ++ ['"']) := by
    simp [Text.quoted]
  have hscan : scan '"' ((Text.quoteChars '"' s.toList).toList ++ ['"'] ++ rest) =
      ⟨.stringLiteral,((Text.quoteChars '"' s.toList).toList ++ ['"']).length + 1⟩ := by
    rw [List.append_assoc]
    refine (scanString_quoteChars 1 s.toList rest).trans ?_
    simp only [List.length_append, List.length_singleton]
    congr 1
    omega
  rw [hchars]
  constructor <;> intro hq offset <;> obtain ⟨t,hk,htext,ht⟩ := pieces_word hscan offset
  · have hbody := unescapeChars_quoteChars (Or.inl rfl) (s := s.toList) fun c hc =>
      hq ⟨'"',c⟩ (List.mem_map_of_mem hc)
    refine ⟨[t],ht,by simp [hk],?_⟩
    rw [← literalBody_eq htext] at hbody
    simpa [Token.isTrivia, hk, Kind.isTrivia] using DatumOf.literal hk hbody
  · have hcode : ∃ c ∈ s.toList, ByCode '"' c := by
      simpa [Clean] using hq
    refine ⟨t,by rw [ht]; exact List.mem_cons_self,Or.inr ⟨by simp [hk],fun chars => ?_⟩⟩
    rw [literalBody_eq htext]
    exact unescapeChars_quoteChars_ne (Or.inl rfl) hcode chars

/-- A character in quotes is a literal if it is clean. -/
lemma writes_quotedChar (c : Char) : Writes [⟨'\'',c⟩] (Text.quotedChar c).toList rest
    (CharOf · c) := by
  have hchars : (Text.quotedChar c).toList = '\'' :: ((Text.quoteChar '\'' c).toList ++ ['\'']) := by
    simp [Text.quotedChar]
  rw [hchars]
  constructor <;> intro hq offset
  · have hcode : ¬ ByCode '\'' c := hq ⟨'\'',c⟩ (List.mem_singleton.mpr rfl)
    have hscan : scan '\'' ((Text.quoteChar '\'' c).toList ++ ['\''] ++ rest) =
        ⟨.charLiteral,((Text.quoteChar '\'' c).toList ++ ['\'']).length + 1⟩ := by
      rw [List.append_assoc]
      refine (scanChar_quoteChar hcode rest).trans ?_
      simp
    obtain ⟨t,hk,htext,ht⟩ := pieces_word hscan offset
    have hbody := unescapeChars_quoteChar (Or.inr rfl) hcode []
    rw [List.append_nil, ← literalBody_eq htext] at hbody
    refine ⟨[t],ht,by simp [hk],?_⟩
    simpa [Token.isTrivia, hk, Kind.isTrivia] using CharOf.intro hk hbody
  · have hcode : ByCode '\'' c := by simpa [Clean] using hq
    rw [List.cons_append, List.append_assoc, pieces]
    refine ⟨_,List.mem_cons_self,?_⟩
    change Token.Faulty (tokenAt (scanChar _).kind (scanChar _).length offset _)
    obtain ⟨hc,hscan⟩ | hgarbage := scanChar_byCode hcode rest
    · refine Or.inr ?_
      rw [show ['\''] ++ rest = '\'' :: rest from rfl, hscan, hc]
      exact ⟨by simp [tokenAt],fun chars => by simp [tokenAt, literalBody, unescapeChars, escaped?]⟩
    · exact Or.inl hgarbage

lemma writes_dataBlock (d : Option Datum) :
    Writes (Datum.quotes d) (Datum.block d).toList rest (DataOf · d) := by
  match d with
  | none => exact .nil .none
  | some d =>
    have hdatum : Writes (Datum.quotes (some d)) d.text.toList ('>' :: rest) (DatumOf · d) := by
      cases d with
      | hole h =>
        exact (writes_hole h (by simp [StopsAt])).mono fun _ hh => .hole hh
      | literal s => exact writes_quoted s
    have hchars : (Datum.block (some d)).toList = '<' :: (d.text.toList ++ ['>']) := by
      simp [Datum.block]
    rw [hchars]
    have hopen : Writes [] ['<'] (d.text.toList ++ ['>'] ++ rest) (Sign .angleOpen) := .sign rfl
    have hclose : Writes [] ['>'] rest (Sign .angleClose) := .sign rfl
    refine (hopen.before (hclose.behind hdatum)).mono ?_
    rintro _ ⟨_,_,rfl,⟨o,rfl,ho⟩,us,_,rfl,hus,c,rfl,hc⟩
    exact .some ho hus hc

lemma writes_rangeHole (hole : Option Hole) :
    Writes [] (Datum.block (hole.map .hole)).toList rest (RangeHoleOf · hole) := by
  cases hole with
  | none => exact .nil .none
  | some h =>
    refine (writes_dataBlock (some (.hole h))).mono ?_
    rintro _ (_ | ⟨ho,hh,hc⟩)
    obtain ⟨hh⟩ := hh
    exact .some ho hh hc

end Leaves

/-! Lists. -/

/-- What can follow a written thing: the end, a comma, a blank, or something that closes. -/
def Ends (rest : List Char) : Prop := ∀ c ∈ rest.head?, c ∈ [',',')',']','\x7d',' ',';']

lemma ends_cons {c : Char} (h : c ∈ [',',')',']','\x7d',' ',';']) (rest : List Char) :
    Ends (c :: rest) := by simpa [Ends] using h

lemma Ends.stopsAt {rest : List Char} (h : Ends rest) {p : Char → Bool}
    (hp : [',',')',']','\x7d',' ',';'].any p = false) : StopsAt p rest := by
  intro c hc
  simpa using List.any_eq_false.mp hp c (h c hc)

section Lists

variable {α β : Type} {R : List Token → α → Prop} {forget : α → β} {quotes : α → List Quote}
  {text : α → List Char} {a : α} {as : List α} {rest : List Char}

/-- A thing that is read back from its text, up to what `forget` leaves out. -/
structure Written (R : List Token → α → Prop) (forget : α → β) (a : α) (quotes : List Quote)
    (text : List Char) : Prop where
  writes : ∀ rest, Ends rest → Writes quotes text rest fun ts => ∃ b, R ts b ∧ forget b = forget a
  begins : ∀ rest, StopsAt isBlank (text ++ rest)

/-- Texts with commas between them. -/
def commaText (text : α → List Char) : List α → List Char
  | [] => []
  | [a] => text a
  | a :: b :: as => text a ++ ',' :: ' ' :: commaText text (b :: as)

lemma separatedOf_cons {b : α} {bs : List α} {us vs : List Token} {comma : Token} (hb : R us b)
    (hc : comma.kind = .comma) (hbs : SeparatedOf R vs bs) :
    SeparatedOf R (us ++ comma :: vs) (b :: bs) := by
  obtain ⟨ha,has⟩ := hbs
  exact .intro hb (.cons ⟨hc,ha⟩ has)

lemma stopsAt_commaText (h : ∀ a ∈ as, Written R forget a (quotes a) (text a)) (hne : as ≠ [])
    (rest : List Char) : StopsAt isBlank (commaText text as ++ rest) := by
  obtain ⟨a,as,rfl⟩ := List.exists_cons_of_ne_nil hne
  have hbegins := (h a List.mem_cons_self).begins
  cases as with
  | nil => exact hbegins rest
  | cons b as =>
    rw [commaText, List.append_assoc]
    exact hbegins _

/-- Written things with commas between them are read back. -/
lemma writes_commaText (h : ∀ a ∈ as, Written R forget a (quotes a) (text a)) (hne : as ≠ [])
    (hrest : Ends rest) : Writes (as.flatMap quotes) (commaText text as) rest fun ts =>
      ∃ bs, SeparatedOf R ts bs ∧ bs.map forget = as.map forget := by
  induction as with
  | nil => exact absurd rfl hne
  | cons a as ih =>
    rw [List.forall_mem_cons] at h
    cases as with
    | nil =>
      rw [List.flatMap_singleton]
      refine (h.1.writes rest hrest).mono ?_
      rintro ts ⟨b,hb,hforget⟩
      exact ⟨[b],by simpa using SeparatedOf.intro hb .nil,by simp [hforget]⟩
    | cons a' as =>
      have htail := (ih h.2 (by simp)).cons_blank (stopsAt_commaText h.2 (by simp) rest)
      have hcomma : Writes [] [','] (' ' :: commaText text (a' :: as) ++ rest) (Sign .comma) :=
        .sign rfl
      have hfirst := h.1.writes _ (ends_cons (c := ',') (by decide)
        (' ' :: commaText text (a' :: as) ++ rest))
      rw [List.flatMap_cons, commaText]
      refine (hfirst.append (hcomma.before htail)).mono ?_
      rintro _ ⟨us,_,rfl,⟨b,hb,hforget⟩,_,vs,rfl,⟨comma,rfl,hk⟩,bs,hbs,hforgets⟩
      exact ⟨b :: bs,separatedOf_cons hb hk hbs,by simp only [List.map_cons, hforget, hforgets]⟩

lemma writes_list (h : ∀ a ∈ as, Written R forget a (quotes a) (text a)) :
    Writes (as.flatMap quotes) ('(' :: (commaText text as ++ [')'])) rest fun ts =>
      ∃ bs, ListOf R ts bs ∧ bs.map forget = as.map forget := by
  have hopen : Writes [] ['('] (commaText text as ++ [')'] ++ rest) (Sign .parenOpen) := .sign rfl
  have hclose : Writes [] [')'] rest (Sign .parenClose) := .sign rfl
  by_cases hne : as = []
  · subst hne
    refine (hopen.before hclose).mono ?_
    rintro _ ⟨_,_,rfl,⟨o,rfl,ho⟩,c,rfl,hc⟩
    exact ⟨[],.empty ho hc,rfl⟩
  · have hinside := writes_commaText h hne (ends_cons (c := ')') (by decide) rest)
    refine (hopen.before (hclose.behind hinside)).mono ?_
    rintro _ ⟨_,_,rfl,⟨o,rfl,ho⟩,us,_,rfl,⟨bs,hbs,hforget⟩,c,rfl,hc⟩
    exact ⟨bs,.some ho hbs hc,hforget⟩

/-- A list in parentheses, which is left out if it is empty. -/
def childrenText (text : α → List Char) (as : List α) : List Char :=
  if as.isEmpty then [] else '(' :: (commaText text as ++ [')'])

lemma toList_parenthesized {s : String} (h : s.toList = commaText text as) :
    (Text.parenthesized as s).toList = childrenText text as := by
  rw [Text.parenthesized, childrenText]
  split_ifs
  · rfl
  · simp [h]

lemma stopsAt_childrenText (hrest : Ends rest) :
    StopsAt isIdChar (childrenText text as ++ rest) := by
  rw [childrenText]
  split_ifs
  · exact hrest.stopsAt (by decide)
  · simp only [StopsAt, List.cons_append, List.head?_cons, Option.mem_some_iff, forall_eq']
    decide

lemma writes_children (h : ∀ a ∈ as, Written R forget a (quotes a) (text a)) :
    Writes (as.flatMap quotes) (childrenText text as) rest fun ts =>
      ∃ bs, ChildrenOf R ts bs ∧ bs.map forget = as.map forget := by
  cases as with
  | nil => exact .nil ⟨[],.none,rfl⟩
  | cons a as =>
    refine (writes_list h).mono ?_
    rintro ts ⟨bs,hbs,hforget⟩
    exact ⟨bs,.some hbs,hforget⟩

end Lists

end TreeRules
