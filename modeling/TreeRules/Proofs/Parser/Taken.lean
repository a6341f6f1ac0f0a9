import TreeRules.Proofs.Parser.Item
import Mathlib.Algebra.Ring.Int.Defs

/-! The tokens that a parser takes, be it that it yields a value or that it rejects. Both times they
hold no semicolon and no garbage. Behind a value as many braces are closed as were opened; where a
parser rejects, some that it opened may be open still. -/
namespace TreeRules

namespace Token

/-- A brace that opens counts one, a brace that closes takes one off. -/
def Kind.braceWeight : Kind → Int
  | .braceOpen => 1
  | .braceClose => -1
  | _ => 0

/-- How many braces more are opened than closed. -/
def openBraces (ts : List Token) : Int := (ts.map (·.kind.braceWeight)).sum

@[simp] lemma openBraces_nil : openBraces [] = 0 := rfl

@[simp] lemma openBraces_cons (t : Token) (ts : List Token) :
    openBraces (t :: ts) = t.kind.braceWeight + openBraces ts := rfl

@[simp] lemma openBraces_append (ts us : List Token) :
    openBraces (ts ++ us) = openBraces ts + openBraces us := by
  simp [openBraces]

/-- Kinds that may stand inside a rule. -/
def Kind.isInner : Kind → Bool
  | .semicolon | .garbage => false
  | _ => true

/-- Tokens that may stand inside a rule. -/
def Inner (ts : List Token) : Prop := ∀ t ∈ ts, t.kind.isInner = true

lemma inner_nil : Inner [] := fun _ h => (List.not_mem_nil h).elim

lemma inner_cons {t : Token} {ts : List Token} (ht : t.kind.isInner = true) (hts : Inner ts) :
    Inner (t :: ts) := List.forall_mem_cons.mpr ⟨ht,hts⟩

lemma Inner.append {ts us : List Token} (hts : Inner ts) (hus : Inner us) : Inner (ts ++ us) :=
  fun t ht => (List.mem_append.mp ht).elim (hts t) (hus t)

end Token

namespace Parser

open Grammar Token
open Token (Kind)

variable {α β : Type} {opened : Nat}

lemma map_apply (g : α → β) (p : Parser α) (s : State) :
    (g <$> p) s = match p s with
      | .ok a t => .ok (g a) t
      | .reject t => .reject t
      | .stop fault => .stop fault := rfl

/-- What goes on after a token that may be there goes on with it or without. -/
lemma eat?_bind (kind : Kind) (f : Option Token → Parser β) (s : State) :
    (eat? kind >>= f) s =
      if headKind s.rest = kind then (next >>= fun t => f (some t)) s else f none s := by
  rw [bind_apply, eat?, peek_bind]
  split_ifs
  · rw [map_apply, bind_apply]
    cases next s <;> rfl
  · rfl

lemma expect_eq (kind : Kind) (missing : Diagnostic.Kind) (s : State) :
    expect kind missing s = if headKind s.rest = kind then (next >>= fun _ => pure ()) s
      else (reportHere missing none >>= fun _ => reject) s := by
  rw [expect, eat?_bind]

/-- Behind `opened` braces that are open: what `p` takes from `s` for a value closes them all and
has what `post` says; what it takes before it rejects closes no more than that. -/
def Takes (opened : Nat) (p : Parser α) (s : State) (post : List Token → α → Prop) : Prop :=
  match p s with
  | .ok v t => ∃ ts, Moves s ts t ∧ Inner ts ∧ opened + openBraces ts = 0 ∧ post ts v
  | .reject t => ∃ ts, Moves s ts t ∧ Inner ts ∧ 0 ≤ opened + openBraces ts
  | .stop _ => True

namespace Takes

variable {p : Parser α} {f : α → Parser β} {s : State} {mid post : List Token → α → Prop}
  {post' : List Token → β → Prop}

lemma pure {v : α} (hp : post [] v) : Takes 0 (pure v) s post :=
  ⟨[],.refl s,inner_nil,rfl,hp⟩

lemma bind_add (more : Nat) (h : Takes opened p s mid)
    (hf : ∀ ts v t, Moves s ts t → mid ts v → Takes more (f v) t fun us w => post' (ts ++ us) w) :
    Takes (opened + more) (p >>= f) s post' := by
  rw [Takes, bind_apply]
  rw [Takes] at h
  cases hps : p s with
  | ok v t =>
    rw [hps] at h
    obtain ⟨ts,hm,hi,hb,hmid⟩ := h
    have hnext := hf ts v t hm hmid
    rw [Takes] at hnext
    dsimp only
    cases hfs : f v t with
    | ok w u =>
      rw [hfs] at hnext
      obtain ⟨us,hm',hi',hb',hpost⟩ := hnext
      refine ⟨ts ++ us,hm.trans hm',hi.append hi',?_,hpost⟩
      rw [openBraces_append]
      omega
    | reject u =>
      rw [hfs] at hnext
      obtain ⟨us,hm',hi',hb'⟩ := hnext
      refine ⟨ts ++ us,hm.trans hm',hi.append hi',?_⟩
      rw [openBraces_append]
      omega
    | stop fault => trivial
  | reject t =>
    rw [hps] at h
    obtain ⟨ts,hm,hi,hb⟩ := h
    exact ⟨ts,hm,hi,by omega⟩
  | stop fault => trivial

lemma bind (h : Takes 0 p s mid)
    (hf : ∀ ts v t, Moves s ts t → mid ts v →
      Takes opened (f v) t fun us w => post' (ts ++ us) w) : Takes opened (p >>= f) s post' := by
  have hadd := h.bind_add opened hf
  rwa [Nat.zero_add] at hadd

lemma of_ok {v : α} {t : State} (h : Takes opened p s post) (hrun : p s = .ok v t) :
    ∃ ts, Moves s ts t ∧ Inner ts ∧ opened + openBraces ts = 0 ∧ post ts v := by
  rw [Takes, hrun] at h
  exact h

lemma mono (h : Takes opened p s mid) (hp : ∀ ts v, mid ts v → post ts v) :
    Takes opened p s post := by
  rw [Takes] at h ⊢
  cases hps : p s with
  | ok v t =>
    rw [hps] at h
    obtain ⟨ts,hm,hi,hb,hmid⟩ := h
    exact ⟨ts,hm,hi,hb,hp ts v hmid⟩
  | reject t =>
    rw [hps] at h
    exact h
  | stop fault => trivial

lemma map {g : α → β} (h : Takes 0 p s fun ts v => post' ts (g v)) :
    Takes 0 (g <$> p) s post' :=
  h.bind fun ts v t _ hv => .pure (by simpa using hv)

/-! Looking and reporting take nothing. -/

lemma peek {f : Kind → Parser β} (h : Takes opened (f (headKind s.rest)) s post') :
    Takes opened (Parser.peek >>= f) s post' := by
  rw [Takes, peek_bind]
  exact h

lemma here {f : Span → Parser β} (h : Takes opened (f (hereSpan s)) s post') :
    Takes opened (Parser.here >>= f) s post' := by
  rw [Takes, here_bind]
  exact h

lemma spanOf {f : Span → Parser β} {start stop : Nat} (h : Takes opened (f ⟨start,stop⟩) s post') :
    Takes opened (Parser.spanOf start stop >>= f) s post' := by
  rw [Takes, bind_apply, Parser.spanOf]
  split_ifs
  · exact h
  · trivial

lemma spanFrom {f : Span → Parser β} {start : Nat}
    (h : Takes opened (f ⟨start,s.lastStop⟩) s post') :
    Takes opened (Parser.spanFrom start >>= f) s post' :=
  show Takes opened (Parser.spanOf start s.lastStop >>= f) s post' from .spanOf h

lemma reportAt (place : Nat) (d : Diagnostic) :
    Takes 0 (Parser.reportAt place d) s fun ts _ => ts = [] := by
  rw [Takes, Parser.reportAt]
  split_ifs
  · exact ⟨[],.refl s,inner_nil,rfl,rfl⟩
  · exact ⟨[],⟨rfl,rfl,rfl,by simp⟩,inner_nil,rfl,rfl⟩

lemma reportHere (kind : Diagnostic.Kind) (detail : Option String) :
    Takes 0 (Parser.reportHere kind detail) s fun ts _ => ts = [] := .here (.reportAt _ _)

lemma reportUnclosed (kind : Diagnostic.Kind) (note : String) (span : Span) :
    Takes 0 (Parser.reportUnclosed kind note span) s fun ts _ => ts = [] := by
  rw [Takes, Parser.reportUnclosed, here_eq]
  dsimp only
  split_ifs
  · exact ⟨[],.refl s,inner_nil,rfl,rfl⟩
  · exact Takes.spanOf (.reportAt _ _)

lemma report_reject {report : Parser Unit} (h : Takes 0 report s fun ts _ => ts = []) :
    Takes opened (report >>= fun _ => reject) s post := by
  refine h.bind fun _ _ t _ _ => ?_
  exact ⟨[],.refl t,inner_nil,by simp⟩

/-! Reading a token. -/

/-- A token is taken off, and its brace counts for what follows. -/
lemma next_bind (after : Nat) {f : Token → Parser β} {t : Token} {ts : List Token}
    (hr : s.rest = t :: ts) (hi : t.kind.isInner = true)
    (hw : after = opened + t.kind.braceWeight)
    (hf : ∀ u, Moves s [t] u → u.rest = ts → Takes after (f t) u fun us w => post' (t :: us) w) :
    Takes opened (Parser.next >>= f) s post' := by
  rw [Takes, bind_apply, Parser.next, hr]
  dsimp only
  by_cases hfuel : s.fuel = 0
  · rw [if_pos hfuel]
    trivial
  · rw [if_neg hfuel]
    have hmoves : Moves s [t]
        { s with rest := ts, lastStop := t.span.stop, fuel := s.fuel - 1 } := ⟨hr,rfl,rfl,id⟩
    have hnext := hf _ hmoves rfl
    rw [Takes] at hnext
    dsimp only
    cases hfs : f t { s with rest := ts, lastStop := t.span.stop, fuel := s.fuel - 1 } with
    | ok w u =>
      rw [hfs] at hnext
      obtain ⟨us,hm,hi',hb,hpost⟩ := hnext
      refine ⟨t :: us,hmoves.trans hm,inner_cons hi hi',?_,hpost⟩
      rw [openBraces_cons]
      omega
    | reject u =>
      rw [hfs] at hnext
      obtain ⟨us,hm,hi',hb⟩ := hnext
      refine ⟨t :: us,hmoves.trans hm,inner_cons hi hi',?_⟩
      rw [openBraces_cons]
      omega
    | stop fault => trivial

/-- A token that is no brace. -/
lemma next_plain {f : Token → Parser β} {kind : Kind} (hh : headKind s.rest = kind)
    (hk : kind ∉ [.endOfInput,.semicolon,.garbage,.braceOpen,.braceClose])
    (hf : ∀ t u, t.kind = kind → Moves s [t] u → s.rest = t :: u.rest →
      Takes 0 (f t) u fun us w => post' (t :: us) w) : Takes 0 (Parser.next >>= f) s post' := by
  obtain ⟨t,ts,hr,rfl⟩ := exists_cons_of_headKind hh (by rintro rfl; simp at hk)
  have hplain : t.kind.isInner = true ∧ t.kind.braceWeight = 0 := by
    revert hk
    cases t.kind <;> decide
  refine next_bind 0 hr hplain.1 (by rw [hplain.2]; rfl) fun u hm hur => hf t u rfl hm ?_
  rw [hr, hur]

lemma eat? {kind : Kind} (hk : kind ∉ [.endOfInput,.semicolon,.garbage,.braceOpen,.braceClose]) :
    Takes 0 (Parser.eat? kind) s fun ts o => match o with
      | some c => ts = [c] ∧ c.kind = kind
      | none => ts = [] ∧ headKind s.rest ≠ kind := by
  refine .peek ?_
  split_ifs with hh
  · refine .next_plain hh hk fun t u ht _ _ => .pure ⟨rfl,ht⟩
  · exact .pure ⟨rfl,hh⟩

lemma expect {kind : Kind} (hk : kind ∉ [.endOfInput,.semicolon,.garbage,.braceOpen,.braceClose])
    (missing : Diagnostic.Kind) :
    Takes 0 (Parser.expect kind missing) s fun ts _ => ∃ c, ts = [c] ∧ c.kind = kind := by
  refine (Takes.eat? hk).bind ?_
  rintro ts (_ | c) t - hc
  · exact report_reject (.reportHere _ _)
  · exact .pure ⟨c,by simpa using hc.1,hc.2⟩

lemma close {kind : Kind} (hk : kind ∉ [.endOfInput,.semicolon,.garbage,.braceOpen,.braceClose])
    (unclosed : Diagnostic.Kind) (span : Span) :
    Takes 0 (Parser.close kind unclosed span) s fun ts _ => ∃ c, ts = [c] ∧ c.kind = kind := by
  refine (Takes.eat? hk).bind ?_
  rintro ts (_ | c) t - hc
  · exact report_reject (.reportUnclosed _ _ _)
  · exact .pure ⟨c,by simpa using hc.1,hc.2⟩

/-- A brace that closes the one that is open. -/
lemma close_brace (unclosed : Diagnostic.Kind) (span : Span) :
    Takes 1 (Parser.close .braceClose unclosed span) s fun ts _ =>
      ∃ c, ts = [c] ∧ c.kind = .braceClose := by
  rw [Takes, Parser.close, eat?_bind]
  split_ifs with hh
  · obtain ⟨c,rest,hr,hc⟩ := exists_cons_of_headKind hh (by decide)
    refine next_bind 0 hr (by rw [hc]; rfl) (by rw [hc]; rfl) fun u _ _ => ?_
    exact .pure ⟨c,rfl,hc⟩
  · exact report_reject (.reportUnclosed _ _ _)

end Takes

end Parser

end TreeRules
