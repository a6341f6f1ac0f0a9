import TreeRules.Proofs.Parser.Follow

/-! Reading by position never does what must not happen, and comes to what reading from the list of
tokens comes to. One lemma for each production: spans end behind their starts because each of them
reads a token first, and slices fit because the kind of their token is known. -/
namespace TreeRules.Cursor

open Token (Kind)
open TreeRules.Parser (Form)

variable {α β : Type} {i : Input} {tokens : List Token} {c d e : State}

namespace Follows

/-- Behind something that is read, all else is read further on. -/
lemma advance {q : Cursor α} {p : Parser α} {g : α → Cursor β} {f : α → Parser β}
    {mid : α → State → Prop} {post : β → State → Prop} (h : Follows i tokens q p c mid)
    (hmid : ∀ v d, mid v d → c.pos < d.pos)
    (hf : ∀ v d, Onward tokens c d → mid v d → Follows i tokens (g v) (f v) d post) :
    Follows i tokens (q >>= g) (p >>= f) c fun w e => c.pos < e.pos ∧ post w e :=
  h.bind fun v d hd hv => (hf v d hd hv).mono fun _ _ he hw =>
    ⟨Nat.lt_of_lt_of_le (hmid v d hv) he.pos,hw⟩

lemma advance_pos {q : Cursor α} {p : Parser α} {g : α → Cursor β} {f : α → Parser β}
    {mid : α → State → Prop} (h : Follows i tokens q p c mid)
    (hmid : ∀ v d, mid v d → c.pos < d.pos)
    (hf : ∀ v d, Onward tokens c d → mid v d →
      Follows i tokens (g v) (f v) d fun _ _ => True) :
    Follows i tokens (q >>= g) (p >>= f) c fun _ e => c.pos < e.pos :=
  (h.advance hmid hf).mono fun _ _ _ => And.left

section Leaf

variable (h : Legible i tokens)
include h

lemma hole (hk : ahead tokens c.pos = .hole) :
    Follows i tokens Cursor.hole Parser.hole c fun _ d => c.pos < d.pos := by
  refine (next h (by simp [hk])).bind fun t d _ ht => ?_
  refine slice (h.digits t ht.mem (ht.kind.trans hk)) ?_
  cases Hole.ofDigits? (t.text.toList.drop 1) with
  | some v => exact .pure ht.pos
  | none => exact (reportAt _ _).bind fun _ _ _ _ => .reject

lemma literal (hk : ahead tokens c.pos = .stringLiteral ∨ ahead tokens c.pos = .charLiteral) :
    Follows i tokens Cursor.literal Parser.literal c fun _ d => c.pos < d.pos := by
  refine (next h (by rcases hk with hk | hk <;> simp [hk])).bind fun t d _ ht => ?_
  refine slice (h.quoted t ht.mem (ht.kind ▸ hk)) ?_
  cases unescapeChars (t.text.toList.drop 1).dropLast with
  | ok chars => exact .pure ht.pos
  | error escape => exact (reportAt _ _).bind fun _ _ _ _ => .reject

lemma char : Follows i tokens Cursor.char Parser.char c fun _ d => c.pos < d.pos := by
  refine .peek h fun k hk => ?_
  split_ifs with hchar
  · refine (literal h (Or.inr (hk.trans hchar))).bind fun x d _ hpos => ?_
    obtain ⟨t,chars⟩ := x
    match chars with
    | [v] => exact .pure hpos
    | [] | _ :: _ :: _ => exact (reportAt _ _).bind fun _ _ _ _ => .reject
  · exact (reportHere h _ _).bind fun _ _ _ _ => .reject

lemma dots : Follows i tokens Cursor.dots Parser.dots c fun _ _ => True :=
  (eat? h (by decide)).bind fun _ _ _ _ => .pure trivial

lemma dataBlock (hk : ahead tokens c.pos = .angleOpen) :
    Follows i tokens Cursor.dataBlock Parser.dataBlock c fun _ _ => True := by
  refine (next h (by simp [hk])).bind fun opened d _ hopened => .peek h fun k hk => ?_
  have hclose : ∀ (datum : Datum) e, Onward tokens d e →
      Follows i tokens (do
        Cursor.close .angleClose .unclosedAngle opened.span
        Pure.pure datum) (do
        Parser.close .angleClose .unclosedAngle opened.span
        Pure.pure datum) e fun _ _ => True := fun datum e he =>
    (close h (by decide) _ (Nat.le_trans hopened.start (h.edge_mono he.pos))).bind
      fun _ _ _ _ => .pure trivial
  cases k with
  | hole =>
    have hdatum : Follows i tokens (Datum.hole <$> Cursor.hole) (Datum.hole <$> Parser.hole) d
      fun _ _ => True := (hole h hk).forget.map
    exact hdatum.bind fun datum e he _ => hclose datum e he
  | stringLiteral => exact (literal h (Or.inl hk)).bind fun x e he _ => hclose _ e he
  | _ => exact (reportHere h _ _).bind fun _ _ _ _ => .reject

lemma dataBlock? : Follows i tokens Cursor.dataBlock? Parser.dataBlock? c fun _ _ => True := by
  refine .peek h fun k hk => ?_
  split_ifs with hangle
  · exact (dataBlock h (hk.trans hangle)).map
  · exact .pure trivial

end Leaf

end Follows

/-! Lists. -/

section List

variable {q : Cursor α} {p : Parser α}

lemma InStep.separated (h : Legible i tokens) {depth : Nat} (hq : InStep i tokens depth q p) :
    InStep i tokens depth (Cursor.separated q) (Parser.separated p) := by
  rintro c rfl
  refine (hq c rfl).bind fun first d hd _ => ?_
  refine (Follows.loop h fun e he => ?_).bind fun _ _ _ _ => .pure trivial
  refine (Follows.eat? h (by decide)).bind fun o e' he' ho => ?_
  cases o with
  | some comma =>
    refine ((hq e' (hd.trans (he.trans he')).depth).mono fun _ _ hlast _ _ => ?_).map
    exact Or.inl (Nat.lt_of_lt_of_le (ho comma rfl).pos hlast.pos)
  | none => exact .pure nofun

variable (h : Legible i tokens) (hq : InStep i tokens c.depth q p)
include h hq

lemma Follows.parenthesized (hk : ahead tokens c.pos = .parenOpen) :
    Follows i tokens (Cursor.parenthesized q) (Parser.parenthesized p) c fun _ _ => True := by
  refine (next h (by simp [hk])).bind fun opened d hd hopened => ?_
  refine (eat? h (by decide)).bind fun o e he _ => ?_
  cases o with
  | some t => exact .pure trivial
  | none =>
    refine (hq.separated h e (hd.trans he).depth).bind fun _ e' he' _ => ?_
    have hstart := Nat.le_trans hopened.start (h.edge_mono (he.trans he').pos)
    exact (close h (by decide) _ hstart).bind fun _ _ _ _ => .pure trivial

lemma Follows.children :
    Follows i tokens (Cursor.children q) (Parser.children p) c fun _ _ => True := by
  refine .peek h fun k hk => ?_
  split_ifs with hparen
  · exact .parenthesized h hq (hk.trans hparen)
  · exact .pure trivial

end List

/-! Items. -/

section Item

variable {q : Cursor Item} {p : Parser Item} (h : Legible i tokens)
include h

/-- A token was read, and what was read leaves the tag of an item open. -/
def Shaped (c : State) (make : Form) (d : State) : Prop :=
  c.pos < d.pos ∧ ∀ tag, (make tag).tag = tag

lemma Follows.holeForm (hk : ahead tokens c.pos = .hole) :
    Follows i tokens Cursor.holeForm Parser.holeForm c (Shaped c) :=
  (hole h hk).advance (fun _ _ => id) fun _ _ _ _ => (dots h).bind fun _ _ _ _ => .pure fun _ => rfl

lemma Follows.rangeForm : Follows i tokens Cursor.rangeForm Parser.rangeForm c (Shaped c) := by
  refine (char h).advance (fun _ _ => id) fun first d _ _ => ?_
  refine (expect h (by decide) _).bind fun _ _ _ _ => (char h).bind fun last _ _ _ => ?_
  refine (eat? h (by decide)).bind fun o e _ ho => ?_
  cases o with
  | none => exact .pure fun _ => rfl
  | some opened =>
    refine .peek h fun k hk => ?_
    split_ifs with hhole
    · refine (hole h (hk.trans hhole)).bind fun v e' he' _ => ?_
      have hstart := Nat.le_trans (ho opened rfl).start (h.edge_mono he'.pos)
      exact (close h (by decide) _ hstart).bind fun _ _ _ _ => .pure fun _ => rfl
    · exact (reportHere h _ _).bind fun _ _ _ _ => .reject

variable (hq : InStep i tokens c.depth q p)
include hq

lemma Follows.namedForm (hk : ahead tokens c.pos = .id) :
    Follows i tokens (Cursor.namedForm q) (Parser.namedForm p) c (Shaped c) := by
  refine (next h (by simp [hk])).advance (fun _ _ => Took.pos) fun name d hd _ => ?_
  refine .peek h fun k hk => ?_
  split_ifs with hhole
  · exact (hole h (hk.trans hhole)).bind fun _ _ _ _ => (dots h).bind fun _ _ _ _ =>
      .pure fun _ => rfl
  · refine (dataBlock? h).bind fun data e he _ => ?_
    rw [← (hd.trans he).depth] at hq
    exact (children h hq).bind fun _ _ _ _ => .pure fun _ => rfl

lemma Follows.combined (hk : ahead tokens c.pos ≠ .endOfInput) :
    Follows i tokens (Cursor.combined q) (Parser.combined p) c fun _ d => c.pos < d.pos := by
  refine (next h hk).advance_pos (fun _ _ => Took.pos) fun _ d hd _ => ?_
  refine .peek h fun k hk => ?_
  split_ifs with hparen
  · rw [← hd.depth] at hq
    exact parenthesized h hq (hk.trans hparen)
  · exact (reportHere h _ _).bind fun _ _ _ _ => .reject

lemma Follows.form : Follows i tokens (Cursor.form q) (Parser.form p) c (Shaped c) := by
  refine .peek h fun k hk => ?_
  cases k with
  | id => exact namedForm h hq hk
  | hole => exact holeForm h hk
  | charLiteral => exact rangeForm h
  | pipe | ampersand =>
    exact (combined h hq (by simp [hk])).bind fun _ _ _ hpos => .pure ⟨hpos,fun _ => rfl⟩
  | ellipsis =>
    exact (next h (by simp [hk])).bind fun _ _ _ ht => .pure ⟨ht.pos,fun _ => rfl⟩
  | _ => exact (reportHere h _ _).bind fun _ _ _ _ => .reject

/-- An atom ends where the last of its tokens does. -/
lemma Follows.atom : Follows i tokens (Cursor.atom q) (Parser.atom p) c
    fun inner d => inner.span.stop = edge tokens d.pos := by
  refine .here h ((form h hq).bind fun make d hd hmake => ?_)
  refine (spanFrom h (h.start_le_edge hmake.1 hd.within)).bind fun span e _ hspan => ?_
  obtain ⟨rfl,rfl⟩ := hspan
  exact .pure (by rw [Item.span, hmake.2]; rfl)

lemma Follows.negated (hk : ahead tokens c.pos = .negation) :
    Follows i tokens (Cursor.negated q) (Parser.negated p) c fun _ _ => True := by
  refine (next h (by simp [hk])).bind fun sign d hd hsign => ?_
  rw [← hd.depth] at hq
  refine (atom h hq).bind fun inner e he hstop => ?_
  have hle : sign.span.start ≤ inner.span.stop := by
    rw [hstop]
    exact Nat.le_trans hsign.start (h.edge_mono he.pos)
  exact (spanOf hle).bind fun _ _ _ _ => .pure trivial

lemma Follows.moded (hk : ahead tokens c.pos ≠ .endOfInput) (mode : Mode) {closing : Kind}
    (hclosing : closing ≠ .endOfInput) (unclosed : Diagnostic.Kind) :
    Follows i tokens (Cursor.moded q mode closing unclosed) (Parser.moded p mode closing unclosed)
      c fun _ _ => True := by
  refine (next h hk).bind fun opened d hd hopened => (hq d hd.depth).bind fun inner d₁ hd₁ _ => ?_
  have hreport : Follows i tokens (reportNestedMode inner) (Parser.reportNestedMode inner) d₁
      fun _ _ => True := by
    rw [reportNestedMode, Parser.reportNestedMode]
    split_ifs
    · exact .pure trivial
    · exact (reportAt _ _).forget
  refine hreport.bind fun _ d₂ hd₂ _ => ?_
  have hstart := Nat.le_trans hopened.start (h.edge_mono (hd₁.trans hd₂).pos)
  refine (close h hclosing _ hstart).bind fun _ d₃ hd₃ _ => ?_
  exact (spanFrom h (Nat.le_trans hstart (h.edge_mono hd₃.pos))).bind fun _ _ _ _ => .pure trivial

lemma Follows.itemWith :
    Follows i tokens (Cursor.itemWith q) (Parser.itemWith p) c fun _ _ => True := by
  refine .peek h fun k hk => ?_
  cases k with
  | bracketOpen | braceOpen => exact moded h hq (by simp [hk]) _ (by decide) _
  | negation => exact negated h hq hk
  | _ => exact (atom h hq).forget

end Item

/-- Calls that nest as deeply as the limit lets them, and one more. -/
lemma inStep_item (h : Legible i tokens) {depth calls : Nat}
    (hdepth : depth + calls = i.recursionLimit) :
    InStep i tokens depth (item (calls + 1)) (Parser.item calls) := by
  induction calls generalizing depth with
  | zero => exact .nested_stop (by omega)
  | succ calls ih =>
    refine .nested (by omega) fun c hc => .itemWith h ?_
    rw [hc]
    exact ih (by omega)

/-! Templates. -/

section Template

variable {q : Cursor Template} {p : Parser Template} (h : Legible i tokens)
  (hq : InStep i tokens c.depth q p)
include h hq

lemma Follows.templateForm : Follows i tokens (Cursor.templateForm q) (Parser.templateForm p) c
    fun _ d => c.pos < d.pos := by
  refine .peek h fun k hk => ?_
  cases k with
  | kwNull => exact (next h (by simp [hk])).bind fun _ _ _ ht => .pure ht.pos
  | hole => exact (hole h hk).bind fun _ _ _ hpos => .pure hpos
  | id =>
    refine (next h (by simp [hk])).advance_pos (fun _ _ => Took.pos) fun _ d hd _ => ?_
    refine (dataBlock? h).bind fun _ e he _ => ?_
    rw [← (hd.trans he).depth] at hq
    exact (children h hq).bind fun _ _ _ _ => .pure trivial
  | _ => exact (reportHere h _ _).bind fun _ _ _ _ => .reject

lemma Follows.templateWith : Follows i tokens (Cursor.templateWith q) (Parser.templateWith p) c
    fun _ _ => True := by
  refine .here h ((templateForm h hq).bind fun make d hd hpos => ?_)
  exact (spanFrom h (h.start_le_edge hpos hd.within)).bind fun _ _ _ _ => .pure trivial

end Template

lemma inStep_template (h : Legible i tokens) {depth calls : Nat}
    (hdepth : depth + calls = i.recursionLimit) :
    InStep i tokens depth (template (calls + 1)) (Parser.template calls) := by
  induction calls generalizing depth with
  | zero => exact .nested_stop (by omega)
  | succ calls ih =>
    refine .nested (by omega) fun c hc => .templateWith h ?_
    rw [hc]
    exact ih (by omega)

end TreeRules.Cursor
