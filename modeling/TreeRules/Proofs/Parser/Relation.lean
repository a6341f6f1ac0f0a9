import TreeRules.Parser.File
import TreeRules.Proofs.Parser.Outcome

/-! Relations between parsers that reading respects: what relates the parsers that look or report,
the reading of one token and the ways to put parsers together, relates all that the grammar is
read by, whatever the limit on nesting is. -/
namespace TreeRules.Parser

open Token (Kind)

variable {α β : Type}

/-- The state with `k` more tokens that may be read. -/
def State.more (k : Nat) (s : State) : State := { s with fuel := s.fuel + k }

@[simp] lemma State.rest_more (k : Nat) (s : State) : (s.more k).rest = s.rest := rfl

@[simp] lemma State.fuel_more (k : Nat) (s : State) : (s.more k).fuel = s.fuel + k := rfl

@[simp] lemma State.reportedAt_more (k : Nat) (s : State) : (s.more k).reportedAt = s.reportedAt :=
  rfl

@[simp] lemma hereSpan_more (k : Nat) (s : State) : hereSpan (s.more k) = hereSpan s := rfl

def Outcome.more (k : Nat) : Outcome α → Outcome α
  | .ok a s => .ok a (s.more k)
  | .reject s => .reject (s.more k)
  | .stop fault => .stop fault

/-- The parser reads no token, and does not look at how many may be read. -/
structure Still (p : Parser α) : Prop where
  blind : ∀ k s, p (s.more k) = (p s).more k
  keeps : ∀ s, match p s with
    | .ok _ t | .reject t => t.rest = s.rest ∧ t.fuel = s.fuel
    | .stop _ => True

namespace Still

lemma pure (a : α) : Still (pure a) := ⟨fun _ _ => rfl,fun _ => ⟨rfl,rfl⟩⟩

lemma reject : Still (Parser.reject : Parser α) := ⟨fun _ _ => rfl,fun _ => ⟨rfl,rfl⟩⟩

lemma stop (fault : Fault) : Still (Parser.stop fault : Parser α) :=
  ⟨fun _ _ => rfl,fun _ => trivial⟩

lemma atEnd : Still Parser.atEnd := ⟨fun _ _ => rfl,fun _ => ⟨rfl,rfl⟩⟩

lemma peek : Still Parser.peek := by
  constructor
  · intro k s
    rw [peek_eq, peek_eq]
    rfl
  · intro s
    rw [peek_eq]
    exact ⟨rfl,rfl⟩

lemma peekText : Still Parser.peekText := by
  constructor
  · rintro k ⟨_ | ⟨t,ts⟩,_,_,_,_,_⟩ <;> rfl
  · rintro ⟨_ | ⟨t,ts⟩,_,_,_,_,_⟩ <;> exact ⟨rfl,rfl⟩

lemma here : Still Parser.here := by
  constructor
  · intro k s
    rw [here_eq, here_eq]
    rfl
  · intro s
    rw [here_eq]
    exact ⟨rfl,rfl⟩

lemma spanOf (start stop : Nat) : Still (Parser.spanOf start stop) := by
  rw [Parser.spanOf]
  split_ifs
  · exact .pure _
  · exact .stop _

lemma spanFrom (start : Nat) : Still (Parser.spanFrom start) :=
  ⟨fun k s => (spanOf start s.lastStop).blind k s,fun s => (spanOf start s.lastStop).keeps s⟩

lemma reportAt (place : Nat) (d : Diagnostic) : Still (Parser.reportAt place d) := by
  constructor
  · intro k s
    rw [Parser.reportAt, Parser.reportAt, State.reportedAt_more]
    split_ifs <;> rfl
  · intro s
    rw [Parser.reportAt]
    split_ifs <;> exact ⟨rfl,rfl⟩

lemma reportUnclosed (kind : Diagnostic.Kind) (note : String) (opened : Span) :
    Still (Parser.reportUnclosed kind note opened) := by
  have hreport : ∀ s, Parser.reportUnclosed kind note opened s =
      if s.reportedAt = some (hereSpan s).start then .ok () s
      else if opened.start ≤ (hereSpan s).stop then
        Parser.reportAt (hereSpan s).start
          (.report kind ⟨opened.start,(hereSpan s).stop⟩ none [⟨note,opened⟩]) s
      else .stop .reversedSpan := by
    intro s
    rw [Parser.reportUnclosed, here_eq]
    dsimp only
    split_ifs with hplace hle
    · rfl
    · rw [bind_apply, spanOf_eq hle]
    · rw [bind_apply, Parser.spanOf, if_neg hle]
      rfl
  constructor
  · intro k s
    rw [hreport, hreport, hereSpan_more, State.reportedAt_more]
    split_ifs
    · rfl
    · exact (reportAt _ _).blind k s
    · rfl
  · intro s
    rw [hreport]
    split_ifs
    · exact ⟨rfl,rfl⟩
    · exact (reportAt _ _).keeps s
    · trivial

end Still

/-- The relation holds of the parsers that read nothing, of reading a token, and of what is put
together from parsers it holds of. -/
structure Respected (R : ∀ {α : Type}, Parser α → Parser α → Prop) : Prop where
  still : ∀ {α : Type} {p : Parser α}, Still p → R p p
  next : R next next
  bind : ∀ {α β : Type} {p q : Parser α} {f g : α → Parser β},
    R p q → (∀ a, R (f a) (g a)) → R (p >>= f) (q >>= g)
  attempt : ∀ {α : Type} {p q : Parser α}, R p q → R (attempt p) (attempt q)
  /-- A parser may look at all tokens that are left. -/
  onRest : ∀ {α : Type} {p q : List Token → Parser α},
    (∀ ts, R (p ts) (q ts)) → R (fun s => p s.rest s) (fun s => q s.rest s)

namespace Respected

variable {R : ∀ {α : Type}, Parser α → Parser α → Prop} (hR : Respected R)
include hR

lemma pure (a : α) : R (Pure.pure a) (Pure.pure a) := hR.still (.pure a)

lemma map {p q : Parser α} (g : α → β) (h : R p q) : R (g <$> p) (g <$> q) :=
  hR.bind h fun a => hR.pure (g a)

lemma peek_bind {f g : Kind → Parser β} (h : ∀ kind, R (f kind) (g kind)) :
    R (peek >>= f) (peek >>= g) := hR.bind (hR.still .peek) h

lemma reportHere (kind : Diagnostic.Kind) (detail : Option String) :
    R (Parser.reportHere kind detail) (Parser.reportHere kind detail) :=
  hR.bind (hR.still .here) fun _ => hR.still (.reportAt _ _)

lemma report_reject {report : Parser Unit} (h : R report report) :
    R (report >>= fun _ => (reject : Parser α)) (report >>= fun _ => reject) :=
  hR.bind h fun _ => hR.still .reject

lemma eat? (kind : Kind) : R (Parser.eat? kind) (Parser.eat? kind) := by
  refine hR.peek_bind fun k => ?_
  split_ifs
  · exact hR.map _ hR.next
  · exact hR.pure none

lemma expect (kind : Kind) (missing : Diagnostic.Kind) :
    R (Parser.expect kind missing) (Parser.expect kind missing) := by
  refine hR.bind (hR.eat? kind) fun o => ?_
  cases o with
  | some t => exact hR.pure ()
  | none => exact hR.report_reject (hR.reportHere _ _)

lemma close (kind : Kind) (unclosed : Diagnostic.Kind) (opened : Span) :
    R (Parser.close kind unclosed opened) (Parser.close kind unclosed opened) := by
  refine hR.bind (hR.eat? kind) fun o => ?_
  cases o with
  | some t => exact hR.pure ()
  | none => exact hR.report_reject (hR.still (.reportUnclosed _ _ _))

/-- Turns of a loop, by induction on how many there may be. -/
lemma turns {step step' : Parser (Turn α)} (h : R step step') (budget : Nat) :
    R (Parser.turns step budget) (Parser.turns step' budget) := by
  induction budget with
  | zero => exact hR.still (.stop _)
  | succ budget ih =>
    refine hR.bind h fun turn => ?_
    cases turn with
    | done => exact hR.pure []
    | skip => exact ih
    | item a => exact hR.map _ ih

lemma loop {step step' : Parser (Turn α)} (h : R step step') :
    R (Parser.loop step) (Parser.loop step') := hR.onRest fun ts => hR.turns h (ts.length + 1)

/-! Leaves. -/

lemma hole : R Parser.hole Parser.hole := by
  refine hR.bind hR.next fun t => ?_
  cases Hole.ofDigits? (t.text.toList.drop 1) with
  | some h => exact hR.pure h
  | none => exact hR.report_reject (hR.still (.reportAt _ _))

lemma literal : R Parser.literal Parser.literal := by
  refine hR.bind hR.next fun t => ?_
  cases unescapeChars (t.text.toList.drop 1).dropLast with
  | ok chars => exact hR.pure _
  | error escape => exact hR.report_reject (hR.still (.reportAt _ _))

lemma char : R Parser.char Parser.char := by
  refine hR.peek_bind fun k => ?_
  split_ifs
  · refine hR.bind hR.literal fun x => ?_
    split
    · exact hR.pure _
    · exact hR.report_reject (hR.still (.reportAt _ _))
  · exact hR.report_reject (hR.reportHere _ _)

lemma dots : R Parser.dots Parser.dots := hR.bind (hR.eat? _) fun _ => hR.pure _

lemma dataBlock : R Parser.dataBlock Parser.dataBlock := by
  refine hR.bind hR.next fun opened => hR.peek_bind fun k => ?_
  have hclose : ∀ d : Datum, R (do
      Parser.close .angleClose .unclosedAngle opened.span
      Pure.pure d) (do
      Parser.close .angleClose .unclosedAngle opened.span
      Pure.pure d) := fun d => hR.bind (hR.close _ _ _) fun _ => hR.pure d
  dsimp only
  split
  · exact hR.bind (hR.map _ hR.hole) hclose
  · exact hR.bind hR.literal fun _ => hclose _
  · exact hR.report_reject (hR.reportHere _ _)

lemma dataBlock? : R Parser.dataBlock? Parser.dataBlock? := by
  refine hR.peek_bind fun k => ?_
  split_ifs
  · exact hR.map _ hR.dataBlock
  · exact hR.pure none

/-! Lists. -/

section Lists

variable {p q : Parser α} (h : R p q)
include h

lemma separated : R (Parser.separated p) (Parser.separated q) := by
  refine hR.bind h fun _ => hR.bind (hR.loop ?_) fun _ => hR.pure _
  refine hR.bind (hR.eat? _) fun o => ?_
  cases o with
  | some t => exact hR.map _ h
  | none => exact hR.pure _

lemma parenthesized : R (Parser.parenthesized p) (Parser.parenthesized q) := by
  refine hR.bind hR.next fun opened => hR.bind (hR.eat? _) fun o => ?_
  cases o with
  | some t => exact hR.pure []
  | none => exact hR.bind (hR.separated h) fun _ => hR.bind (hR.close _ _ _) fun _ => hR.pure _

lemma children : R (Parser.children p) (Parser.children q) := by
  refine hR.peek_bind fun k => ?_
  split_ifs
  · exact hR.parenthesized h
  · exact hR.pure []

end Lists

/-! Items. -/

lemma rangeForm : R Parser.rangeForm Parser.rangeForm := by
  refine hR.bind hR.char fun _ => hR.bind (hR.expect _ _) fun _ => hR.bind hR.char fun _ => ?_
  refine hR.bind (hR.eat? _) fun o => ?_
  cases o with
  | none => exact hR.pure _
  | some opened =>
    refine hR.peek_bind fun k => ?_
    split_ifs
    · exact hR.bind hR.hole fun _ => hR.bind (hR.close _ _ _) fun _ => hR.pure _
    · exact hR.report_reject (hR.reportHere _ _)

section Items

variable {p q : Parser Item} (h : R p q)
include h

lemma namedForm : R (Parser.namedForm p) (Parser.namedForm q) := by
  refine hR.bind hR.next fun name => hR.peek_bind fun k => ?_
  split_ifs
  · exact hR.bind hR.hole fun _ => hR.bind hR.dots fun _ => hR.pure _
  · exact hR.bind hR.dataBlock? fun _ => hR.bind (hR.children h) fun _ => hR.pure _

lemma combined : R (Parser.combined p) (Parser.combined q) := by
  refine hR.bind hR.next fun _ => hR.peek_bind fun k => ?_
  split_ifs
  · exact hR.parenthesized h
  · exact hR.report_reject (hR.reportHere _ _)

lemma form : R (Parser.form p) (Parser.form q) := by
  refine hR.peek_bind fun k => ?_
  split
  · exact hR.namedForm h
  · exact hR.bind hR.hole fun _ => hR.bind hR.dots fun _ => hR.pure _
  · exact hR.rangeForm
  · exact hR.bind (hR.combined h) fun _ => hR.pure _
  · exact hR.bind (hR.combined h) fun _ => hR.pure _
  · exact hR.bind hR.next fun _ => hR.pure _
  · exact hR.report_reject (hR.reportHere _ _)

lemma atom : R (Parser.atom p) (Parser.atom q) :=
  hR.bind (hR.still .here) fun _ => hR.bind (hR.form h) fun _ =>
    hR.bind (hR.still (.spanFrom _)) fun _ => hR.pure _

lemma moded (mode : Mode) (closing : Kind) (unclosed : Diagnostic.Kind) :
    R (Parser.moded p mode closing unclosed) (Parser.moded q mode closing unclosed) := by
  refine hR.bind hR.next fun opened => hR.bind h fun inner => ?_
  have hreport : R (reportNestedMode inner) (reportNestedMode inner) := by
    rw [reportNestedMode]
    split_ifs
    · exact hR.pure ()
    · exact hR.still (.reportAt _ _)
  exact hR.bind hreport fun _ => hR.bind (hR.close _ _ _) fun _ =>
    hR.bind (hR.still (.spanFrom _)) fun _ => hR.pure _

lemma itemWith : R (Parser.itemWith p) (Parser.itemWith q) := by
  refine hR.peek_bind fun k => ?_
  split
  · exact hR.moded h _ _ _
  · exact hR.moded h _ _ _
  · exact hR.bind hR.next fun _ => hR.bind (hR.atom h) fun _ =>
      hR.bind (hR.still (.spanOf _ _)) fun _ => hR.pure _
  · exact hR.atom h

end Items

/-! Templates. -/

lemma templateWith {p q : Parser Template} (h : R p q) :
    R (Parser.templateWith p) (Parser.templateWith q) := by
  have hform : R (templateForm p) (templateForm q) := by
    refine hR.peek_bind fun k => ?_
    split
    · exact hR.bind hR.next fun _ => hR.pure _
    · exact hR.bind hR.hole fun _ => hR.pure _
    · exact hR.bind hR.next fun _ => hR.bind hR.dataBlock? fun _ =>
        hR.bind (hR.children h) fun _ => hR.pure _
    · exact hR.report_reject (hR.reportHere _ _)
  exact hR.bind (hR.still .here) fun _ => hR.bind hform fun _ =>
    hR.bind (hR.still (.spanFrom _)) fun _ => hR.pure _

/-! Files. From here on the limits on nesting are `depth` and `depth + more`; the relation has to
hold where the smaller one is hit. -/

section Files

variable {depth more : Nat}

lemma item (h : R (Parser.item 0) (Parser.item more)) :
    R (Parser.item depth) (Parser.item (depth + more)) := by
  induction depth with
  | zero => rwa [Nat.zero_add]
  | succ depth ih =>
    rw [Nat.succ_add]
    exact hR.itemWith ih

lemma template (h : R (Parser.template 0) (Parser.template more)) :
    R (Parser.template depth) (Parser.template (depth + more)) := by
  induction depth with
  | zero => rwa [Nat.zero_add]
  | succ depth ih =>
    rw [Nat.succ_add]
    exact hR.templateWith ih

lemma advance (count : Nat) : R (Parser.advance count) (Parser.advance count) := by
  induction count with
  | zero => exact hR.pure ()
  | succ count ih => exact hR.bind hR.next fun _ => ih

lemma skipStatement : R Parser.skipStatement Parser.skipStatement :=
  hR.onRest fun ts => hR.advance (statementLength 0 ts)

lemma skipUnexpected : R Parser.skipUnexpected Parser.skipUnexpected :=
  hR.bind (hR.still .peekText) fun _ => hR.bind (hR.reportHere _ _) fun _ =>
    hR.bind hR.next fun _ => hR.pure ()

variable (hi : R (Parser.item 0) (Parser.item more))
  (ht : R (Parser.template 0) (Parser.template more))
include hi ht

lemma rule : R (Parser.rule depth) (Parser.rule (depth + more)) := by
  have hbody : R (ruleBody depth) (ruleBody (depth + more)) :=
    hR.bind (hR.separated (hR.item hi)) fun _ => hR.bind (hR.expect _ _) fun _ =>
      hR.bind (hR.template ht) fun _ => hR.bind (hR.expect _ _) fun _ => hR.pure _
  refine hR.bind (hR.still .here) fun _ => hR.bind (hR.attempt hbody) fun o => ?_
  cases o with
  | some body => exact hR.bind (hR.still (.spanFrom _)) fun _ => hR.pure _
  | none => exact hR.bind hR.skipStatement fun _ => hR.pure none

lemma blockTurn (opened : Span) :
    R (Parser.blockTurn depth opened) (Parser.blockTurn (depth + more) opened) := by
  refine hR.bind (hR.still .atEnd) fun e => ?_
  split_ifs
  · exact hR.bind (hR.still (.reportUnclosed _ _ _)) fun _ => hR.pure _
  · refine hR.peek_bind fun k => ?_
    split
    · exact hR.bind hR.next fun _ => hR.pure _
    · split_ifs
      · exact hR.map _ (hR.rule hi ht)
      · exact hR.bind hR.skipUnexpected fun _ => hR.pure _

lemma block : R (Parser.block depth) (Parser.block (depth + more)) := by
  have hname : R blockName blockName := by
    refine hR.bind (hR.eat? _) fun o => ?_
    cases o with
    | some t => exact hR.pure _
    | none => exact hR.bind (hR.reportHere _ _) fun _ => hR.pure none
  refine hR.bind hR.next fun _ => hR.bind hname fun name => hR.bind (hR.eat? _) fun o => ?_
  cases o with
  | none => exact hR.bind (hR.reportHere _ _) fun _ => hR.pure none
  | some opened => exact hR.bind (hR.loop (hR.blockTurn hi ht _)) fun _ => hR.pure _

lemma fileTurn : R (Parser.fileTurn depth) (Parser.fileTurn (depth + more)) := by
  refine hR.bind (hR.still .atEnd) fun e => ?_
  split_ifs
  · exact hR.pure _
  · refine hR.peek_bind fun k => ?_
    split
    · exact hR.bind (hR.block hi ht) fun _ => hR.pure _
    · split_ifs
      · exact hR.bind (hR.rule hi ht) fun _ => hR.pure _
      · exact hR.bind hR.skipUnexpected fun _ => hR.pure _

/-- A relation that reading respects relates the reading of a file with the one that more things may
nest in, if it holds where the limit on nesting is hit. -/
theorem file : R (Parser.loop (Parser.fileTurn depth))
    (Parser.loop (Parser.fileTurn (depth + more))) := hR.loop (hR.fileTurn hi ht)

end Files

end Respected

end TreeRules.Parser
