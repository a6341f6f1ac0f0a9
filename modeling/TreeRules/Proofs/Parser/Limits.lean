import TreeRules.Proofs.Parser.File

/-! The limits of reading. Items and templates nest behind a token each, so where there are no more
tokens than may be read and than things may nest, neither limit is hit. -/
namespace TreeRules.Parser

open Token (Kind)

variable {α β : Type} {n : Nat}

/-- At most `n` tokens are left, and all of them may be read. -/
structure Ample (n : Nat) (s : State) : Prop where
  left : s.rest.length ≤ n
  fuel : s.rest.length ≤ s.fuel

/-- With at most `n` tokens left the parser hits no limit, and no token comes back. -/
def Fits (n : Nat) (p : Parser α) : Prop :=
  ∀ m ≤ n, ∀ s, Ample m s → match p s with
    | .ok _ t | .reject t => Ample m t
    | .stop fault => fault ≠ .fuelExhausted ∧ fault ≠ .tooDeep

/-- The parser hits no limit once a token is read. -/
def FitsInside (n : Nat) (p : Parser α) : Prop := ∀ m < n, Fits m p

namespace Fits

variable {p : Parser α} {f : α → Parser β}

lemma bind (h : Fits n p) (hf : ∀ a, Fits n (f a)) : Fits n (p >>= f) := by
  intro m hm s hs
  have hp := h m hm s hs
  rw [bind_apply]
  cases hps : p s with
  | ok a t =>
    rw [hps] at hp
    exact hf a m hm t hp
  | reject t =>
    rw [hps] at hp
    exact hp
  | stop fault =>
    rw [hps] at hp
    exact hp

lemma pure (a : α) : Fits n (pure a) := fun _ _ _ hs => hs

lemma map {g : α → β} (h : Fits n p) : Fits n (g <$> p) := h.bind fun a => .pure (g a)

/-- Parsers that read nothing. -/
lemma of_keeps (h : ∀ s, match p s with
    | .ok _ t | .reject t => t.rest = s.rest ∧ t.fuel = s.fuel
    | .stop fault => fault = .reversedSpan) : Fits n p := by
  intro m _ s hs
  have hp := h s
  cases hps : p s with
  | ok a t | reject t =>
    rw [hps] at hp
    obtain ⟨hrest,hfuel⟩ := hp
    exact ⟨hrest ▸ hs.left,hrest ▸ hfuel ▸ hs.fuel⟩
  | stop fault =>
    rw [hps] at hp
    exact ⟨by simp [show fault = _ from hp],by simp [show fault = _ from hp]⟩

lemma peek : Fits n Parser.peek := of_keeps fun s => by
  rw [peek_eq]
  exact ⟨rfl,rfl⟩

lemma here : Fits n Parser.here := of_keeps fun s => by
  rw [here_eq]
  exact ⟨rfl,rfl⟩

lemma peekText : Fits n Parser.peekText := of_keeps fun s => by
  unfold Parser.peekText
  cases hr : s.rest <;> exact ⟨hr,rfl⟩

lemma atEnd : Fits n Parser.atEnd := of_keeps fun _ => ⟨rfl,rfl⟩

lemma reject : Fits n (Parser.reject : Parser α) := of_keeps fun _ => ⟨rfl,rfl⟩

lemma spanOf (start stop : Nat) : Fits n (Parser.spanOf start stop) := of_keeps fun s => by
  unfold Parser.spanOf
  split_ifs
  · exact ⟨rfl,rfl⟩
  · rfl

lemma spanFrom (start : Nat) : Fits n (Parser.spanFrom start) :=
  fun m hm s => spanOf start s.lastStop m hm s

lemma reportAt (place : Nat) (d : Diagnostic) : Fits n (Parser.reportAt place d) :=
  of_keeps fun s => by
    unfold Parser.reportAt
    split_ifs <;> exact ⟨rfl,rfl⟩

lemma reportHere (kind : Diagnostic.Kind) (detail : Option String) :
    Fits n (Parser.reportHere kind detail) := here.bind fun _ => reportAt _ _

lemma reportUnclosed (kind : Diagnostic.Kind) (note : String) (opened : Span) :
    Fits n (Parser.reportUnclosed kind note opened) := by
  intro m hm s hs
  unfold Parser.reportUnclosed
  rw [here_eq]
  dsimp only
  split_ifs
  · exact hs
  · exact (spanOf _ _).bind (fun _ => reportAt _ _) m hm s hs

/-- Behind a token there is room for one thing less. -/
lemma next_bind {f : Token → Parser β} (hf : ∀ t, FitsInside n (f t)) :
    Fits n (Parser.next >>= f) := by
  intro m hm s hs
  rw [bind_apply, Parser.next]
  cases hr : s.rest with
  | nil => exact ⟨by decide,by decide⟩
  | cons t ts =>
    have hleft := hs.left
    have hfuel := hs.fuel
    rw [hr, List.length_cons] at hleft hfuel
    dsimp only
    rw [if_neg (by omega)]
    have hrun := hf t ts.length (by omega) ts.length (Nat.le_refl _)
      { s with rest := ts, lastStop := t.span.stop, fuel := s.fuel - 1 }
      ⟨Nat.le_refl _,by dsimp only; omega⟩
    split at hrun
    next h =>
      simp only [h]
      exact ⟨Nat.le_trans hrun.left (by omega),hrun.fuel⟩
    next h =>
      simp only [h]
      exact ⟨Nat.le_trans hrun.left (by omega),hrun.fuel⟩
    next h =>
      simp only [h]
      exact hrun

lemma next : Fits n Parser.next := by
  intro m hm s hs
  have hnext : Fits n (Parser.next >>= fun t => Pure.pure t) := next_bind fun t _ _ => .pure t
  have hrun := hnext m hm s hs
  rw [bind_apply] at hrun
  cases hn : Parser.next s with
  | ok t u | reject u | stop fault =>
    rw [hn] at hrun
    exact hrun

lemma eat? (kind : Kind) : Fits n (Parser.eat? kind) := by
  refine peek.bind fun k => ?_
  split_ifs
  · exact next.map
  · exact .pure none

lemma expect (kind : Kind) (missing : Diagnostic.Kind) : Fits n (Parser.expect kind missing) := by
  refine (eat? kind).bind fun o => ?_
  cases o with
  | some t => exact .pure ()
  | none => exact (reportHere _ _).bind fun _ => .reject

lemma close (kind : Kind) (unclosed : Diagnostic.Kind) (opened : Span) :
    Fits n (Parser.close kind unclosed opened) := by
  refine (eat? kind).bind fun o => ?_
  cases o with
  | some t => exact .pure ()
  | none => exact (reportUnclosed _ _ _).bind fun _ => .reject

lemma attempt (h : Fits n p) : Fits n (Parser.attempt p) := by
  intro m hm s hs
  have hp := h m hm s hs
  rw [Parser.attempt]
  cases hps : p s with
  | ok a t | reject t | stop fault =>
    rw [hps] at hp
    exact hp

lemma loop {step : Parser (Turn α)} (h : Fits n step) : Fits n (Parser.loop step) := by
  have hturns : ∀ budget, Fits n (turns step budget) := by
    intro budget
    induction budget with
    | zero => exact fun _ _ _ _ => ⟨by decide,by decide⟩
    | succ budget ih =>
      refine h.bind fun turn => ?_
      cases turn with
      | done => exact .pure []
      | skip => exact ih
      | item a => exact ih.map
  exact fun m hm s => hturns _ m hm s

/-! Leaves. -/

lemma hole : Fits n Parser.hole := by
  refine next.bind fun t => ?_
  cases Hole.ofDigits? (t.text.toList.drop 1) with
  | some h => exact .pure h
  | none => exact (reportAt _ _).bind fun _ => .reject

lemma literal : Fits n Parser.literal := by
  refine next.bind fun t => ?_
  cases unescapeChars (t.text.toList.drop 1).dropLast with
  | ok chars => exact .pure _
  | error escape => exact (reportAt _ _).bind fun _ => .reject

lemma char : Fits n Parser.char := by
  refine peek.bind fun k => ?_
  split_ifs
  · refine literal.bind fun x => ?_
    split
    · exact .pure _
    · exact (reportAt _ _).bind fun _ => .reject
  · exact (reportHere _ _).bind fun _ => .reject

lemma dots : Fits n Parser.dots := (eat? _).bind fun _ => .pure _

lemma dataBlock : Fits n Parser.dataBlock := by
  refine next.bind fun opened => peek.bind fun k => ?_
  have hclose : ∀ d : Datum, Fits n (do
      Parser.close .angleClose .unclosedAngle opened.span
      Pure.pure d) := fun d => (close _ _ _).bind fun _ => .pure d
  dsimp only
  split
  · exact hole.map.bind hclose
  · exact literal.bind fun _ => hclose _
  · exact (reportHere _ _).bind fun _ => .reject

lemma dataBlock? : Fits n Parser.dataBlock? := by
  refine peek.bind fun k => ?_
  split_ifs
  · exact dataBlock.map
  · exact .pure none

/-! Lists. -/

lemma separated (h : Fits n p) : Fits n (Parser.separated p) := by
  refine h.bind fun _ => (loop ?_).bind fun _ => .pure _
  refine (eat? _).bind fun o => ?_
  cases o with
  | some t => exact h.map
  | none => exact .pure _

end Fits

namespace FitsInside

variable {p : Parser α}

lemma parenthesized (h : FitsInside n p) : Fits n (Parser.parenthesized p) := by
  refine .next_bind fun opened m hm => (Fits.eat? _).bind fun o => ?_
  cases o with
  | some t => exact .pure []
  | none => exact (h m hm).separated.bind fun _ => (Fits.close _ _ _).bind fun _ => .pure _

lemma children (h : FitsInside n p) : Fits n (Parser.children p) := by
  refine Fits.peek.bind fun k => ?_
  split_ifs
  · exact h.parenthesized
  · exact .pure []

end FitsInside

/-! Items. -/

namespace FitsInside

variable {p : Parser Item}

lemma namedForm (h : FitsInside n p) : Fits n (Parser.namedForm p) := by
  refine Fits.next.bind fun name => Fits.peek.bind fun k => ?_
  split_ifs
  · exact Fits.hole.bind fun _ => Fits.dots.bind fun _ => .pure _
  · exact Fits.dataBlock?.bind fun _ => h.children.bind fun _ => .pure _

lemma combined (h : FitsInside n p) : Fits n (Parser.combined p) := by
  refine Fits.next.bind fun _ => Fits.peek.bind fun k => ?_
  split_ifs
  · exact h.parenthesized
  · exact (Fits.reportHere _ _).bind fun _ => .reject

end FitsInside

lemma fits_rangeForm : Fits n rangeForm := by
  refine Fits.char.bind fun _ => (Fits.expect _ _).bind fun _ => Fits.char.bind fun _ => ?_
  refine (Fits.eat? _).bind fun o => ?_
  cases o with
  | none => exact .pure _
  | some opened =>
    refine Fits.peek.bind fun k => ?_
    split_ifs
    · exact Fits.hole.bind fun _ => (Fits.close _ _ _).bind fun _ => .pure _
    · exact (Fits.reportHere _ _).bind fun _ => .reject

namespace FitsInside

variable {p : Parser Item}

lemma form (h : FitsInside n p) : Fits n (Parser.form p) := by
  refine Fits.peek.bind fun k => ?_
  split
  · exact h.namedForm
  · exact Fits.hole.bind fun _ => Fits.dots.bind fun _ => .pure _
  · exact fits_rangeForm
  · exact h.combined.bind fun _ => .pure _
  · exact h.combined.bind fun _ => .pure _
  · exact Fits.next.bind fun _ => .pure _
  · exact (Fits.reportHere _ _).bind fun _ => .reject

lemma atom (h : FitsInside n p) : Fits n (Parser.atom p) :=
  Fits.here.bind fun _ => h.form.bind fun _ => (Fits.spanFrom _).bind fun _ => .pure _

lemma moded (h : FitsInside n p) (mode : Mode) (closing : Kind) (unclosed : Diagnostic.Kind) :
    Fits n (Parser.moded p mode closing unclosed) := by
  refine .next_bind fun opened m hm => (h m hm).bind fun inner => ?_
  have hreport : Fits m (reportNestedMode inner) := by
    unfold reportNestedMode
    split_ifs
    · exact .pure ()
    · exact .reportAt _ _
  exact hreport.bind fun _ => (Fits.close _ _ _).bind fun _ => (Fits.spanFrom _).bind fun _ =>
    .pure _

lemma itemWith (h : FitsInside n p) : Fits n (Parser.itemWith p) := by
  refine Fits.peek.bind fun k => ?_
  split
  · exact h.moded _ _ _
  · exact h.moded _ _ _
  · exact Fits.next.bind fun _ => h.atom.bind fun _ => (Fits.spanOf _ _).bind fun _ => .pure _
  · exact h.atom

end FitsInside

lemma FitsInside.templateWith {p : Parser Template} (h : FitsInside n p) :
    Fits n (Parser.templateWith p) := by
  have hform : Fits n (templateForm p) := by
    refine Fits.peek.bind fun k => ?_
    split
    · exact Fits.next.bind fun _ => .pure _
    · exact Fits.hole.bind fun _ => .pure _
    · exact Fits.next.bind fun _ => Fits.dataBlock?.bind fun _ => h.children.bind fun _ => .pure _
    · exact (Fits.reportHere _ _).bind fun _ => .reject
  exact Fits.here.bind fun _ => hform.bind fun _ => (Fits.spanFrom _).bind fun _ => .pure _

end TreeRules.Parser
