import TreeRules.Proofs.Parser.Outcome

/-! Parsers that succeed. `Yields` says which value a parser gives and where it comes to, limits
apart: nothing is reported on the way. -/
namespace TreeRules.Parser

open Token (Kind)

variable {α β : Type}

/-- The state behind the tokens `ts`, with `rest` still to be read. -/
def State.past (s : State) (ts rest : List Token) : State :=
  { s with rest, lastStop := endOf s.lastStop ts, fuel := s.fuel - ts.length }

/-- From `s` the parser gives `v` and comes to `t`, unless it hits a limit. -/
def Yields (p : Parser α) (s : State) (v : α) (t : State) : Prop :=
  p s = .ok v t ∨ p s = .stop .fuelExhausted ∨ p s = .stop .tooDeep

section Past

variable {s : State} {ts us rest : List Token}

@[simp] lemma rest_past : (s.past ts rest).rest = rest := rfl

@[simp] lemma lastStop_past : (s.past ts rest).lastStop = endOf s.lastStop ts := rfl

lemma past_nil (hr : s.rest = [] ++ rest) : s.past [] rest = s := by
  cases s
  cases hr
  rfl

@[simp] lemma past_past (mid : List Token) :
    (s.past ts mid).past us rest = s.past (ts ++ us) rest := by
  simp [State.past, endOf_append, Nat.sub_sub]

lemma good_past (hs : Good s) (hr : s.rest = ts ++ rest) : Good (s.past ts rest) :=
  ⟨(inOrder_drop (hr ▸ hs.inOrder)).2,fun t ht => hs.kinds t (hr ▸ List.mem_append_right ts ht),
    hs.reported⟩

lemma good_past_one (hs : Good s) {t : Token} (hr : s.rest = t :: rest) :
    Good (s.past [t] rest) := good_past hs hr

end Past

namespace Yields

variable {p : Parser α} {f : α → Parser β} {s t u : State} {v : α} {w : β}

lemma pure (v : α) (s : State) : Yields (pure v) s v s := Or.inl rfl

lemma finish (v : α) (h : s = t) : Yields (Pure.pure v) s v t := h ▸ .pure v s

lemma of_eq (h : p s = .ok v t) : Yields p s v t := Or.inl h

lemma bind (h : Yields p s v t) (hf : Yields (f v) t w u) : Yields (p >>= f) s w u := by
  rw [Yields, bind_apply]
  rcases h with h | h | h
  · rw [h]
    exact hf
  · rw [h]
    exact Or.inr (Or.inl rfl)
  · rw [h]
    exact Or.inr (Or.inr rfl)

lemma map {g : α → β} (h : Yields p s v t) : Yields (g <$> p) s (g v) t :=
  h.bind (.pure _ _)

lemma peek {f : Kind → Parser β} (h : Yields (f (headKind s.rest)) s w u) :
    Yields (Parser.peek >>= f) s w u := by
  rw [Yields, peek_bind]
  exact h

lemma here {f : Span → Parser β} (h : Yields (f (hereSpan s)) s w u) :
    Yields (Parser.here >>= f) s w u := by
  rw [Yields, here_bind]
  exact h

lemma atEnd {f : Bool → Parser β} (h : Yields (f s.rest.isEmpty) s w u) :
    Yields (Parser.atEnd >>= f) s w u := h

lemma next {tok : Token} {rest : List Token} (hr : s.rest = tok :: rest) :
    Yields Parser.next s tok (s.past [tok] rest) := by
  rw [Yields, Parser.next, hr]
  dsimp only
  split_ifs
  · exact Or.inr (Or.inl rfl)
  · exact Or.inl rfl

lemma eat {tok : Token} {rest : List Token} {kind : Kind} (hr : s.rest = tok :: rest)
    (hk : tok.kind = kind) : Yields (Parser.eat? kind) s (some tok) (s.past [tok] rest) := by
  refine .peek ?_
  rw [if_pos (by rw [hr]; exact hk)]
  exact .map (.next hr)

lemma eat_none {kind : Kind} (hk : headKind s.rest ≠ kind) :
    Yields (Parser.eat? kind) s none s := by
  refine .peek ?_
  rw [if_neg hk]
  exact .pure _ _

lemma expect {tok : Token} {rest : List Token} {kind : Kind} (hr : s.rest = tok :: rest)
    (hk : tok.kind = kind) (missing : Diagnostic.Kind) :
    Yields (Parser.expect kind missing) s () (s.past [tok] rest) :=
  .bind (.eat hr hk) (.pure _ _)

lemma close {tok : Token} {rest : List Token} {kind : Kind} (hr : s.rest = tok :: rest)
    (hk : tok.kind = kind) (unclosed : Diagnostic.Kind) (opened : Span) :
    Yields (Parser.close kind unclosed opened) s () (s.past [tok] rest) :=
  .bind (.eat hr hk) (.pure _ _)

lemma attempt (h : Yields p s v t) : Yields (Parser.attempt p) s (some v) t := by
  rw [Yields, Parser.attempt]
  rcases h with h | h | h
  · rw [h]
    exact Or.inl rfl
  · rw [h]
    exact Or.inr (Or.inl rfl)
  · rw [h]
    exact Or.inr (Or.inr rfl)

end Yields

end TreeRules.Parser
