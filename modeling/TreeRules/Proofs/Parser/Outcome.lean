import TreeRules.Parser.State
import TreeRules.Proofs.Token.Rules

/-! Ways to speak of a parser's outcome. `Wp` says what holds wherever a parser comes to, be it with
diagnostics or without; it never breaks off but for the limits on tokens and nesting. -/
namespace TreeRules.Parser

open Token (Kind InOrder)

variable {α β : Type}

/-- The kind of the next token. -/
def headKind : List Token → Kind
  | [] => .endOfInput
  | t :: _ => t.kind

/-- Where the last of the tokens ends. -/
def endOf (stop : Nat) (ts : List Token) : Nat := ts.getLast?.elim stop (·.span.stop)

/-- States that can be come to: the tokens that are left stand in order behind the last one read,
and a place that was reported at has a diagnostic. -/
structure Good (s : State) : Prop where
  inOrder : InOrder s.lastStop s.rest s.endOffset
  kinds : ∀ t ∈ s.rest, t.kind ≠ .endOfInput
  reported : s.reportedAt.isSome = true → s.diagnostics ≠ []

/-- From `s` to `t` the tokens `ts` were read. Diagnostics are never taken back. -/
structure Moves (s : State) (ts : List Token) (t : State) : Prop where
  rest : s.rest = ts ++ t.rest
  lastStop : t.lastStop = endOf s.lastStop ts
  endOffset : t.endOffset = s.endOffset
  quiet : t.diagnostics = [] → s.diagnostics = []

@[simp] lemma endOf_cons (stop : Nat) (t : Token) (ts : List Token) :
    endOf stop (t :: ts) = endOf t.span.stop ts := by
  rw [endOf, endOf, List.getLast?_cons]
  cases ts.getLast? <;> rfl

lemma endOf_append (stop : Nat) (ts us : List Token) :
    endOf stop (ts ++ us) = endOf (endOf stop ts) us := by
  induction ts generalizing stop with
  | nil => rfl
  | cons t ts ih => rw [List.cons_append, endOf_cons, ih, endOf_cons]

/-- Reading on, tokens stand in order behind the last one read. -/
lemma inOrder_drop {low high : Nat} {ts us : List Token} (h : InOrder low (ts ++ us) high) :
    low ≤ endOf low ts ∧ InOrder (endOf low ts) us high := by
  induction ts generalizing low with
  | nil => exact ⟨Nat.le_refl _,h⟩
  | cons t ts ih =>
    obtain ⟨hle,hrest⟩ := ih h.2.2
    have := h.1
    have := h.2.1
    rw [endOf_cons]
    exact ⟨by omega,hrest⟩

namespace Moves

variable {s t u : State} {ts us : List Token}

lemma refl (s : State) : Moves s [] s := ⟨rfl,rfl,rfl,id⟩

lemma trans (h : Moves s ts t) (h' : Moves t us u) : Moves s (ts ++ us) u :=
  ⟨by rw [h.rest, h'.rest, List.append_assoc],by rw [h'.lastStop, h.lastStop, endOf_append],
    h'.endOffset.trans h.endOffset,h.quiet ∘ h'.quiet⟩

lemma lastStop_le (h : Moves s ts t) (hs : Good s) : s.lastStop ≤ t.lastStop := by
  rw [h.lastStop]
  exact (inOrder_drop (h.rest ▸ hs.inOrder)).1

end Moves

/-- Wherever `p` comes to from `s`: with a value, `post` tells of the tokens read, the value and the
state; where it rejects there is a diagnostic. -/
def Wp (p : Parser α) (s : State) (post : List Token → α → State → Prop) : Prop :=
  match p s with
  | .ok v t => Good t ∧ ∃ ts, Moves s ts t ∧ post ts v t
  | .reject t => Good t ∧ t.diagnostics ≠ [] ∧ ∃ ts, Moves s ts t
  | .stop fault => fault = .fuelExhausted ∨ fault = .tooDeep

namespace Wp

variable {p : Parser α} {f : α → Parser β} {s : State} {mid post : List Token → α → State → Prop}
  {post' : List Token → β → State → Prop}

lemma pure {v : α} (hs : Good s) (hp : post [] v s) : Wp (pure v) s post :=
  ⟨hs,[],.refl s,hp⟩

lemma bind (h : Wp p s mid)
    (hf : ∀ ts v t, Good t → Moves s ts t → mid ts v t →
      Wp (f v) t fun us w u => post' (ts ++ us) w u) : Wp (p >>= f) s post' := by
  rw [Wp, bind_apply]
  rw [Wp] at h
  cases hps : p s with
  | ok v t =>
    rw [hps] at h
    obtain ⟨ht,ts,hm,hmid⟩ := h
    have hnext := hf ts v t ht hm hmid
    rw [Wp] at hnext
    dsimp only
    cases hfs : f v t with
    | ok w u =>
      rw [hfs] at hnext
      obtain ⟨hu,us,hm',hpost⟩ := hnext
      exact ⟨hu,ts ++ us,hm.trans hm',hpost⟩
    | reject u =>
      rw [hfs] at hnext
      obtain ⟨hu,hd,us,hm'⟩ := hnext
      exact ⟨hu,hd,ts ++ us,hm.trans hm'⟩
    | stop fault =>
      rw [hfs] at hnext
      exact hnext
  | reject t =>
    rw [hps] at h
    exact h
  | stop fault =>
    rw [hps] at h
    exact h

lemma map {g : α → β} (h : Wp p s fun ts v t => post' ts (g v) t) : Wp (g <$> p) s post' :=
  h.bind fun ts v t ht _ hp => .pure ht (by simpa using hp)

lemma mono (h : Wp p s mid) (hp : ∀ ts v t, Good t → Moves s ts t → mid ts v t → post ts v t) :
    Wp p s post := by
  rw [Wp] at h ⊢
  cases hps : p s with
  | ok v t =>
    rw [hps] at h
    obtain ⟨ht,ts,hm,hmid⟩ := h
    exact ⟨ht,ts,hm,hp ts v t ht hm hmid⟩
  | reject t =>
    rw [hps] at h
    exact h
  | stop fault =>
    rw [hps] at h
    exact h

end Wp

/-! Looking ahead reads nothing. -/

/-- Where the next token stands. -/
def hereSpan (s : State) : Span :=
  match s.rest with
  | [] => .emptyAt s.endOffset
  | t :: _ => t.span

section Look

variable {f : Kind → Parser β} {s : State}

lemma peek_eq (s : State) : peek s = .ok (headKind s.rest) s := by
  rw [peek]
  cases s.rest <;> rfl

lemma here_eq (s : State) : here s = .ok (hereSpan s) s := by
  rw [here, hereSpan]
  cases s.rest <;> rfl

lemma peek_bind (f : Kind → Parser β) (s : State) : (peek >>= f) s = f (headKind s.rest) s := by
  rw [bind_apply, peek_eq]

lemma here_bind (f : Span → Parser β) (s : State) : (here >>= f) s = f (hereSpan s) s := by
  rw [bind_apply, here_eq]

lemma spanOf_eq {start stop : Nat} (h : start ≤ stop) (s : State) :
    spanOf start stop s = .ok ⟨start,stop⟩ s := by
  rw [spanOf, if_pos h]
  rfl

lemma spanFrom_eq {start : Nat} {s : State} (h : start ≤ s.lastStop) :
    spanFrom start s = .ok ⟨start,s.lastStop⟩ s := spanOf_eq h s

lemma le_hereSpan {s : State} (hs : Good s) : s.lastStop ≤ (hereSpan s).stop := by
  have ho := hs.inOrder
  rw [hereSpan]
  cases hr : s.rest with
  | nil =>
    rw [hr] at ho
    exact ho
  | cons t ts =>
    rw [hr] at ho
    exact Nat.le_trans ho.1 ho.2.1

end Look

/-- A next token of some kind is there. -/
lemma exists_cons_of_headKind {ts : List Token} {kind : Kind} (h : headKind ts = kind)
    (hk : kind ≠ .endOfInput) : ∃ t us, ts = t :: us ∧ t.kind = kind := by
  cases ts with
  | nil => exact absurd h.symm hk
  | cons t us => exact ⟨t,us,rfl,h⟩

namespace Wp

variable {p : Parser α} {s : State} {post : List Token → α → State → Prop}
  {post' : List Token → β → State → Prop}

lemma peek {f : Kind → Parser β} (h : Wp (f (headKind s.rest)) s post') :
    Wp (Parser.peek >>= f) s post' := by
  rw [Wp, peek_bind]
  exact h

lemma here {f : Span → Parser β} (h : Wp (f (hereSpan s)) s post') :
    Wp (Parser.here >>= f) s post' := by
  rw [Wp, here_bind]
  exact h

lemma atEnd {f : Bool → Parser β} (h : Wp (f s.rest.isEmpty) s post') :
    Wp (Parser.atEnd >>= f) s post' := h

lemma next {post : List Token → Token → State → Prop} (hs : Good s) {t : Token} {ts : List Token}
    (hr : s.rest = t :: ts)
    (hp : ∀ u, Good u → Moves s [t] u → u.rest = ts → post [t] t u) :
    Wp Parser.next s post := by
  rw [Wp, Parser.next, hr]
  dsimp only
  split_ifs with hfuel
  · exact Or.inl rfl
  · have ho := hs.inOrder
    rw [hr] at ho
    have hgood : Good { s with rest := ts, lastStop := t.span.stop, fuel := s.fuel - 1 } :=
      ⟨ho.2.2,fun u hu => hs.kinds u (by simp [hr, hu]),hs.reported⟩
    have hmoves : Moves s [t]
        { s with rest := ts, lastStop := t.span.stop, fuel := s.fuel - 1 } :=
      ⟨hr,rfl,rfl,id⟩
    exact ⟨hgood,[t],hmoves,hp _ hgood hmoves rfl⟩

lemma next_bind {f : Token → Parser β} (hs : Good s) {t : Token} {ts : List Token}
    (hr : s.rest = t :: ts)
    (hf : ∀ u, Good u → Moves s [t] u → u.rest = ts →
      Wp (f t) u fun us w v => post' (t :: us) w v) : Wp (Parser.next >>= f) s post' := by
  have hn : Wp Parser.next s fun us v u => us = [t] ∧ v = t ∧ u.rest = ts :=
    Wp.next hs hr fun u _ _ hur => ⟨rfl,rfl,hur⟩
  refine hn.bind ?_
  rintro us v u hu hm ⟨rfl,rfl,hur⟩
  exact hf u hu hm hur

lemma eat? (hs : Good s) {kind : Kind} (hk : kind ≠ .endOfInput) :
    Wp (Parser.eat? kind) s fun ts o t => match o with
      | some c => ts = [c] ∧ c.kind = kind
      | none => ts = [] ∧ t = s ∧ headKind s.rest ≠ kind := by
  refine Wp.peek ?_
  split_ifs with hh
  · obtain ⟨c,us,hr,hc⟩ := exists_cons_of_headKind hh hk
    exact Wp.map (Wp.next hs hr fun u _ _ _ => ⟨rfl,hc⟩)
  · exact Wp.pure hs ⟨rfl,rfl,hh⟩

/-! Reporting. -/

/-- After a report there is a diagnostic, and nothing was read. -/
lemma reportAt (hs : Good s) (place : Nat) (d : Diagnostic) :
    Wp (Parser.reportAt place d) s fun ts _ t =>
      ts = [] ∧ t.rest = s.rest ∧ t.diagnostics ≠ [] := by
  rw [Wp, Parser.reportAt]
  split_ifs with hp
  · exact ⟨hs,[],.refl s,rfl,rfl,hs.reported (by simp [hp])⟩
  · exact ⟨⟨hs.inOrder,hs.kinds,by simp⟩,[],⟨rfl,rfl,rfl,by simp⟩,rfl,rfl,by simp⟩

lemma reportHere (hs : Good s) (kind : Diagnostic.Kind) (detail : Option String) :
    Wp (Parser.reportHere kind detail) s fun ts _ t =>
      ts = [] ∧ t.rest = s.rest ∧ t.diagnostics ≠ [] := .here (Wp.reportAt hs _ _)

/-- Reporting what is not closed needs the place of the opening to lie behind. -/
lemma reportUnclosed (hs : Good s) (kind : Diagnostic.Kind) (note : String) {opened : Span}
    (ho : opened.start ≤ s.lastStop) :
    Wp (Parser.reportUnclosed kind note opened) s fun ts _ t =>
      ts = [] ∧ t.rest = s.rest ∧ t.diagnostics ≠ [] := by
  rw [Wp, Parser.reportUnclosed, here_eq]
  dsimp only
  split_ifs with hp
  · exact ⟨hs,[],.refl s,rfl,rfl,hs.reported (by simp [hp])⟩
  · rw [bind_apply, spanOf_eq (Nat.le_trans ho (le_hereSpan hs))]
    exact Wp.reportAt hs _ _

lemma report_reject {report : Parser Unit}
    (hr : Wp report s fun ts _ t => ts = [] ∧ t.rest = s.rest ∧ t.diagnostics ≠ []) :
    Wp (report >>= fun _ => reject) s post :=
  hr.bind fun _ _ t ht _ hd => ⟨ht,hd.2.2,[],.refl t⟩

lemma expect (hs : Good s) {kind : Kind} (hk : kind ≠ .endOfInput) (missing : Diagnostic.Kind) :
    Wp (Parser.expect kind missing) s fun ts _ _ => ∃ c, ts = [c] ∧ c.kind = kind := by
  refine (Wp.eat? hs hk).bind ?_
  rintro ts (_ | c) t ht hm hc
  · exact report_reject (Wp.reportHere ht _ _)
  · exact .pure ht ⟨c,by simpa using hc.1,hc.2⟩

lemma close (hs : Good s) {kind : Kind} (hk : kind ≠ .endOfInput) (unclosed : Diagnostic.Kind)
    {opened : Span} (ho : opened.start ≤ s.lastStop) :
    Wp (Parser.close kind unclosed opened) s fun ts _ _ => ∃ c, ts = [c] ∧ c.kind = kind := by
  refine (Wp.eat? hs hk).bind ?_
  rintro ts (_ | c) t ht hm hc
  · obtain ⟨-,rfl,-⟩ := hc
    exact report_reject (Wp.reportUnclosed ht _ _ ho)
  · exact .pure ht ⟨c,by simpa using hc.1,hc.2⟩

lemma attempt (h : Wp p s post) :
    Wp (Parser.attempt p) s fun ts o t => match o with
      | some v => post ts v t
      | none => t.diagnostics ≠ [] := by
  rw [Wp] at h ⊢
  rw [Parser.attempt]
  cases hp : p s with
  | ok v t =>
    rw [hp] at h
    exact h
  | reject t =>
    rw [hp] at h
    obtain ⟨ht,hd,ts,hm⟩ := h
    exact ⟨ht,ts,hm,hd⟩
  | stop fault =>
    rw [hp] at h
    exact h

end Wp

end TreeRules.Parser
