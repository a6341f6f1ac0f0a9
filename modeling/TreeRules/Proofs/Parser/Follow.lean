import TreeRules.Proofs.Parser.Cursor
import TreeRules.Proofs.Parser.File

/-! Reading by position beside reading from a list. A position stands for the tokens behind it; as
long as no limit is passed both readers come to the same, and past a limit the one by position still
does nothing that must not happen. -/
namespace TreeRules.Cursor

open Token (Kind InOrder)
open TreeRules.Parser (Turn headKind hereSpan endOf)

variable {α β : Type} {i : Input} {tokens : List Token} {c d e : State}

lemma bind_apply (q : Cursor α) (g : α → Cursor β) (i : Input) (c : State) :
    (q >>= g) i c = match q i c with
      | .ok a d => g a i d
      | .reject d => .reject d
      | .panic fault => .panic fault := rfl

/-- The input is the row of the tokens, and whatever is cut out of it for a token can be. -/
structure Legible (i : Input) (tokens : List Token) : Prop where
  marks : i.marks = tokens.map fun t => ⟨t.kind,t.span⟩
  inOrder : InOrder 0 tokens i.endOffset
  kinds : ∀ t ∈ tokens, t.kind ≠ .endOfInput
  text : ∀ t ∈ tokens, Text.slice? t.span.start t.span.stop i.source = some t.text.toList
  digits : ∀ t ∈ tokens, t.kind = .hole →
    Text.slice? 1 (byteLength t.text.toList) t.text.toList = some (t.text.toList.drop 1)
  quoted : ∀ t ∈ tokens, t.kind = .stringLiteral ∨ t.kind = .charLiteral →
    Text.slice? 1 (byteLength t.text.toList - 1) t.text.toList =
      some (t.text.toList.drop 1).dropLast

/-- Where the tokens before a position end. -/
def edge (tokens : List Token) (pos : Nat) : Nat := endOf 0 (tokens.take pos)

/-- The kind of the token at a position. -/
def ahead (tokens : List Token) (pos : Nat) : Kind := headKind (tokens.drop pos)

/-- What a state by position stands for. -/
def view (i : Input) (tokens : List Token) (c : State) : Parser.State where
  rest := tokens.drop c.pos
  lastStop := edge tokens c.pos
  endOffset := i.endOffset
  fuel := c.fuel
  reportedAt := c.reportedAt
  diagnostics := c.diagnostics

lemma edge_succ {pos : Nat} {t : Token} (ht : tokens[pos]? = some t) :
    edge tokens (pos + 1) = t.span.stop := by
  rw [edge, List.take_add_one, ht, Parser.endOf_append]
  rfl

namespace Legible

variable (h : Legible i tokens)
include h

lemma length_marks : i.marks.length = tokens.length := by
  rw [h.marks, List.length_map]

lemma mark (pos : Nat) : i.marks[pos]? = tokens[pos]?.map fun t => ⟨t.kind,t.span⟩ := by
  rw [h.marks, List.getElem?_map]

/-- Tokens stand in order behind those that were read. -/
lemma inOrder_drop (pos : Nat) : InOrder (edge tokens pos) (tokens.drop pos) i.endOffset := by
  have ho := h.inOrder
  rw [← List.take_append_drop pos tokens] at ho
  exact (Parser.inOrder_drop ho).2

lemma edge_mono {pos pos' : Nat} (hpos : pos ≤ pos') : edge tokens pos ≤ edge tokens pos' := by
  have ho := h.inOrder_drop pos
  rw [← List.take_append_drop (pos' - pos) (tokens.drop pos)] at ho
  have hsplit : tokens.take pos' = tokens.take pos ++ (tokens.drop pos).take (pos' - pos) := by
    rw [← List.take_add, Nat.add_sub_cancel' hpos]
  rw [edge, edge, hsplit, Parser.endOf_append]
  exact (Parser.inOrder_drop ho).1

/-- The end of the tokens that were read, by position. -/
lemma lastStop_eq (hc : c.pos ≤ tokens.length) : lastStop i c = edge tokens c.pos := by
  rw [lastStop]
  cases hpos : c.pos with
  | zero => rfl
  | succ last =>
    obtain ⟨t,ht⟩ : ∃ t, tokens[last]? = some t := ⟨_,List.getElem?_eq_getElem (by omega)⟩
    dsimp only
    rw [edge_succ ht, h.mark, ht]
    rfl

/-- Either nothing is left at a position, or a token that stands behind those that were read. -/
lemma token_cases (pos : Nat) :
    (tokens[pos]? = none ∧ tokens.drop pos = [] ∧ tokens.length ≤ pos) ∨
      ∃ t ∈ tokens, tokens[pos]? = some t ∧ tokens.drop pos = t :: tokens.drop (pos + 1) ∧
        pos < tokens.length ∧ edge tokens pos ≤ t.span.stop ∧
        t.span.start ≤ edge tokens (pos + 1) := by
  have ho := h.inOrder_drop pos
  cases ht : tokens[pos]? with
  | none =>
    have hlength := List.getElem?_eq_none_iff.mp ht
    exact Or.inl ⟨rfl,List.drop_eq_nil_of_le hlength,hlength⟩
  | some t =>
    obtain ⟨hlt,rfl⟩ := List.getElem?_eq_some_iff.mp ht
    have hdrop := List.drop_eq_getElem_cons hlt
    rw [hdrop] at ho
    rw [edge_succ ht]
    exact Or.inr ⟨_,List.getElem_mem hlt,rfl,hdrop,hlt,Nat.le_trans ho.1 ho.2.1,ho.2.1⟩

lemma here_eq (c : State) : here i c = .ok (hereSpan (view i tokens c)) c := by
  rw [here, h.mark, hereSpan]
  obtain ⟨ht,hr,-⟩ | ⟨t,-,ht,hr,-⟩ := h.token_cases c.pos <;>
  · simp only [view, ht, hr]
    rfl

lemma peek_eq (c : State) : peek i c = .ok (ahead tokens c.pos) c := by
  rw [peek, h.mark, ahead]
  obtain ⟨ht,hr,-⟩ | ⟨t,-,ht,hr,-⟩ := h.token_cases c.pos <;>
  · simp only [ht, hr]
    rfl

/-- What is read next ends behind what was read before. -/
lemma edge_le_stop (c : State) : edge tokens c.pos ≤ (hereSpan (view i tokens c)).stop := by
  obtain ⟨-,hr,-⟩ | ⟨t,-,-,hr,-,hstop,-⟩ := h.token_cases c.pos
  · have ho := h.inOrder_drop c.pos
    simp only [hereSpan, view, hr] at ho ⊢
    exact ho
  · simpa only [hereSpan, view, hr] using hstop

/-- Once something was read, the last of it ends behind the start of the first. -/
lemma start_le_edge (hpos : c.pos < d.pos) (hd : d.pos ≤ tokens.length) :
    (hereSpan (view i tokens c)).start ≤ edge tokens d.pos := by
  obtain ⟨-,-,hlength⟩ | ⟨t,-,-,hr,-,-,hstart⟩ := h.token_cases c.pos
  · omega
  · simp only [hereSpan, view, hr]
    exact Nat.le_trans hstart (h.edge_mono hpos)

lemma written_eq {t : Token} (ht : t ∈ tokens) (c : State) :
    written ⟨t.kind,t.span⟩ i c = .ok t.text c := by
  have hslice : slice t.span.start t.span.stop i.source = pure t.text.toList := by
    rw [slice, h.text t ht]
  rw [written, hslice]
  change Outcome.ok (String.ofList t.text.toList) c = _
  rw [String.ofList_toList]

end Legible

/-! How two readers keep together. -/

/-- From `c` on to `d`, which lies among the tokens: no token comes back, calls are left as they
were entered, and a limit that was passed stays passed. -/
structure Onward (tokens : List Token) (c d : State) : Prop where
  within : d.pos ≤ tokens.length
  pos : c.pos ≤ d.pos
  depth : d.depth = c.depth
  fuel : d.fuel ≤ c.fuel
  fatal : ∀ fault, c.fatal = some fault → d.fatal = some fault

namespace Onward

lemma refl (hc : c.pos ≤ tokens.length) : Onward tokens c c :=
  ⟨hc,Nat.le_refl _,rfl,Nat.le_refl _,fun _ => id⟩

lemma trans (h : Onward tokens c d) (h' : Onward tokens d e) : Onward tokens c e :=
  ⟨h'.within,Nat.le_trans h.pos h'.pos,h'.depth.trans h.depth,Nat.le_trans h'.fuel h.fuel,
    fun fault hc => h'.fatal fault (h.fatal fault hc)⟩

end Onward

/-- What comes of reading from a list agrees with a value, or none, and a state by position. -/
def Agrees (i : Input) (tokens : List Token) (o : Parser.Outcome α) (value : Option α)
    (d : State) : Prop :=
  match o with
  | .ok v t => value = some v ∧ t = view i tokens d ∧ d.fatal = none
  | .reject t => value = none ∧ t = view i tokens d ∧ d.fatal = none
  | .stop fault => d.fatal = some fault

namespace Agrees

variable {p : Parser α} {f : α → Parser β} {s : Parser.State}

/-- What the list gave first, then what it gives from there. -/
lemma bind {v : α} {value : Option β} (h : Agrees i tokens (p s) (some v) d)
    (ho : Onward tokens d e)
    (hf : d.fatal = none → Agrees i tokens (f v (view i tokens d)) value e) :
    Agrees i tokens ((p >>= f) s) value e := by
  rw [Parser.bind_apply]
  cases hp : p s with
  | ok w t =>
    rw [hp] at h
    obtain ⟨hw,rfl,hd⟩ := h
    cases hw
    exact hf hd
  | reject t =>
    rw [hp] at h
    exact absurd h.1 (by simp)
  | stop fault =>
    rw [hp] at h
    exact ho.fatal fault h

lemma bind_none (h : Agrees i tokens (p s) none d) : Agrees i tokens ((p >>= f) s) none d := by
  rw [Parser.bind_apply]
  cases hp : p s with
  | ok w t =>
    rw [hp] at h
    exact absurd h.1 (by simp)
  | reject t =>
    rw [hp] at h
    exact ⟨rfl,h.2⟩
  | stop fault =>
    rw [hp] at h
    exact h

lemma attempt {value : Option α} (h : Agrees i tokens (p s) value d) :
    Agrees i tokens (Parser.attempt p s) (some value) d := by
  rw [Parser.attempt]
  cases hp : p s with
  | ok v t | reject t =>
    rw [hp] at h
    exact ⟨congrArg some h.1,h.2⟩
  | stop fault =>
    rw [hp] at h
    exact h

end Agrees

/-- From a state among the tokens, `q` never panics. Unless a limit is passed already, it comes to
what `p` comes to, and passes a limit where `p` breaks off. -/
def Follows (i : Input) (tokens : List Token) (q : Cursor α) (p : Parser α) (c : State)
    (post : α → State → Prop) : Prop :=
  c.pos ≤ tokens.length →
    match q i c with
    | .ok v d => Onward tokens c d ∧
      (c.fatal = none → Agrees i tokens (p (view i tokens c)) (some v) d) ∧ post v d
    | .reject d => Onward tokens c d ∧
      (c.fatal = none → Agrees i tokens (p (view i tokens c)) none d)
    | .panic _ => False

namespace Follows

variable {q q' : Cursor α} {p p' : Parser α} {g : α → Cursor β} {f : α → Parser β}
  {mid post : α → State → Prop} {post' : β → State → Prop}

lemma of_ok {v : α} (hq : q i c = .ok v d) (ho : c.pos ≤ tokens.length → Onward tokens c d)
    (hp : c.fatal = none → Agrees i tokens (p (view i tokens c)) (some v) d) (hv : post v d) :
    Follows i tokens q p c post := by
  intro hc
  rw [hq]
  exact ⟨ho hc,hp,hv⟩

lemma congr (hq : q' i c = q i c) (hp : p' (view i tokens c) = p (view i tokens c))
    (h : Follows i tokens q p c post) : Follows i tokens q' p' c post := by
  rw [Follows, hq, hp]
  exact h

/-- Past a limit it does not matter what is read from the list. -/
lemma of_fatal (hc : c.fatal ≠ none) (h : Follows i tokens q p' c post) :
    Follows i tokens q p c post := by
  intro hpos
  have hq := h hpos
  cases hqc : q i c with
  | ok v d =>
    rw [hqc] at hq
    exact ⟨hq.1,fun hnone => absurd hnone hc,hq.2.2⟩
  | reject d =>
    rw [hqc] at hq
    exact ⟨hq.1,fun hnone => absurd hnone hc⟩
  | panic fault =>
    rw [hqc] at hq
    exact hq

lemma mono (h : Follows i tokens q p c mid)
    (hp : ∀ v d, Onward tokens c d → mid v d → post v d) : Follows i tokens q p c post := by
  intro hc
  have hq := h hc
  cases hqc : q i c with
  | ok v d =>
    rw [hqc] at hq
    exact ⟨hq.1,hq.2.1,hp v d hq.1 hq.2.2⟩
  | reject d | panic fault =>
    rw [hqc] at hq
    exact hq

lemma forget (h : Follows i tokens q p c post) : Follows i tokens q p c fun _ _ => True :=
  h.mono fun _ _ _ _ => trivial

lemma pure {v : α} (hv : post v c) : Follows i tokens (pure v) (pure v) c post :=
  of_ok rfl .refl (fun hc => ⟨rfl,rfl,hc⟩) hv

lemma reject : Follows i tokens (Cursor.reject : Cursor α) Parser.reject c post :=
  fun hc => ⟨.refl hc,fun hnone => ⟨rfl,rfl,hnone⟩⟩

lemma bind (h : Follows i tokens q p c mid)
    (hf : ∀ v d, Onward tokens c d → mid v d → Follows i tokens (g v) (f v) d post') :
    Follows i tokens (q >>= g) (p >>= f) c post' := by
  intro hc
  have hq := h hc
  rw [bind_apply]
  cases hqc : q i c with
  | ok v d =>
    rw [hqc] at hq
    obtain ⟨ho,hagree,hmid⟩ := hq
    have hg := hf v d ho hmid ho.within
    dsimp only
    cases hgd : g v i d with
    | ok w e =>
      rw [hgd] at hg
      exact ⟨ho.trans hg.1,fun hnone => (hagree hnone).bind hg.1 hg.2.1,hg.2.2⟩
    | reject e =>
      rw [hgd] at hg
      exact ⟨ho.trans hg.1,fun hnone => (hagree hnone).bind hg.1 hg.2⟩
    | panic fault =>
      rw [hgd] at hg
      exact hg
  | reject d =>
    rw [hqc] at hq
    exact ⟨hq.1,fun hnone => (hq.2 hnone).bind_none⟩
  | panic fault =>
    rw [hqc] at hq
    exact hq

lemma map {k : α → β} (h : Follows i tokens q p c fun v d => post' (k v) d) :
    Follows i tokens (k <$> q) (k <$> p) c post' :=
  h.bind fun _ _ _ hv => .pure hv

lemma attempt (h : Follows i tokens q p c post) :
    Follows i tokens (Cursor.attempt q) (Parser.attempt p) c fun o d => ∀ v ∈ o, post v d := by
  intro hc
  have hq := h hc
  rw [Cursor.attempt]
  cases hqc : q i c with
  | ok v d =>
    rw [hqc] at hq
    exact ⟨hq.1,fun hnone => (hq.2.1 hnone).attempt,by simpa using hq.2.2⟩
  | reject d =>
    rw [hqc] at hq
    exact ⟨hq.1,fun hnone => (hq.2 hnone).attempt,by simp⟩
  | panic fault =>
    rw [hqc] at hq
    exact hq

end Follows

/-! Looking ahead, spans and reports. -/

/-- The token `t` was read between `c` and `d`. -/
structure Took (tokens : List Token) (c : State) (t : Token) (d : State) : Prop where
  mem : t ∈ tokens
  kind : t.kind = ahead tokens c.pos
  pos : c.pos < d.pos
  start : t.span.start ≤ edge tokens d.pos

lemma Onward.step (hc : c.pos < tokens.length) : Onward tokens c c.step := by
  rw [State.step]
  split_ifs with hfuel
  · exact ⟨hc,Nat.le_succ _,rfl,Nat.le_refl _,fun fault hfatal => by simp [State.pass, hfatal]⟩
  · exact ⟨hc,Nat.le_succ _,rfl,Nat.sub_le _ _,fun _ => id⟩

@[simp] lemma pos_step (c : State) : c.step.pos = c.pos + 1 := by
  rw [State.step]
  split_ifs <;> rfl

namespace Follows

variable {p : Parser α} {post : α → State → Prop} {post' : β → State → Prop}

section Look

variable (h : Legible i tokens)
include h

lemma peek {g : Kind → Cursor β} {f : Kind → Parser β}
    (hf : ∀ kind, ahead tokens c.pos = kind → Follows i tokens (g kind) (f kind) c post') :
    Follows i tokens (Cursor.peek >>= g) (Parser.peek >>= f) c post' := by
  refine congr ?_ (Parser.peek_bind f _) (hf _ rfl)
  rw [bind_apply, h.peek_eq]
  rfl

lemma here {g : Span → Cursor β} {f : Span → Parser β}
    (hf : Follows i tokens (g (hereSpan (view i tokens c))) (f (hereSpan (view i tokens c))) c
      post') : Follows i tokens (Cursor.here >>= g) (Parser.here >>= f) c post' := by
  refine congr ?_ (Parser.here_bind f _) hf
  rw [bind_apply, h.here_eq]

/-- Where loops look whether to go on, past a limit they do not. -/
lemma shouldStop {g : Bool → Cursor β} {f : Bool → Parser β}
    (hstop : (c.fatal = none → ahead tokens c.pos = .endOfInput) →
      Follows i tokens (g true) (f true) c post')
    (hgo : c.fatal = none → ahead tokens c.pos ≠ .endOfInput →
      Follows i tokens (g false) (f false) c post') :
    Follows i tokens (Cursor.shouldStop >>= g) (Parser.atEnd >>= f) c post' := by
  have hq : (Cursor.shouldStop >>= g) i c =
      g (decide (tokens.length ≤ c.pos) || c.fatal.isSome) i c := by
    rw [← h.length_marks]
    rfl
  have hp : (Parser.atEnd >>= f) (view i tokens c) =
      f (tokens.drop c.pos).isEmpty (view i tokens c) := rfl
  cases hfatal : c.fatal with
  | some fault =>
    refine of_fatal (by simp [hfatal]) (congr ?_ rfl (hstop (by simp [hfatal])))
    rw [hq, hfatal, Option.isSome_some, Bool.or_true]
  | none =>
    obtain ⟨-,hr,hlength⟩ | ⟨t,ht,-,hr,hlength,-⟩ := h.token_cases c.pos
    · refine congr ?_ ?_ (hstop fun _ => by rw [ahead, hr]; rfl)
      · rw [hq, decide_eq_true hlength, Bool.true_or]
      · rw [hp, hr, List.isEmpty_nil]
    · have hahead : ahead tokens c.pos ≠ .endOfInput := by
        rw [ahead, hr]
        exact h.kinds t ht
      refine congr ?_ ?_ (hgo hfatal hahead)
      · rw [hq, decide_eq_false (by omega), hfatal, Option.isSome_none, Bool.or_false]
      · rw [hp, hr, List.isEmpty_cons]

lemma peekText : Follows i tokens Cursor.peekText Parser.peekText c fun _ d => d = c := by
  obtain ⟨ht,hr,-⟩ | ⟨t,hmem,ht,hr,-⟩ := h.token_cases c.pos
  · have hq : Cursor.peekText i c = .ok "" c := by
      simp only [Cursor.peekText, h.mark, ht, Option.map_none]
    refine of_ok hq .refl (fun hnone => ?_) rfl
    simp only [Parser.peekText, view, hr]
    exact ⟨rfl,by rw [← hr]; rfl,hnone⟩
  · have hq : Cursor.peekText i c = .ok t.text c := by
      simp only [Cursor.peekText, h.mark, ht, Option.map_some, h.written_eq hmem]
    refine of_ok hq .refl (fun hnone => ?_) rfl
    simp only [Parser.peekText, view, hr]
    exact ⟨rfl,by rw [← hr]; rfl,hnone⟩

lemma next (hahead : ahead tokens c.pos ≠ .endOfInput) :
    Follows i tokens Cursor.next Parser.next c (Took tokens c) := by
  obtain ⟨-,hr,-⟩ | ⟨t,hmem,ht,hr,hlength,-,hstart⟩ := h.token_cases c.pos
  · exact absurd (by rw [ahead, hr]; rfl) hahead
  have hq : Cursor.next i c = .ok t c.step := by
    simp only [Cursor.next, h.mark, ht, Option.map_some, bind_apply, h.written_eq hmem]
    rfl
  have htook : Took tokens c t c.step :=
    ⟨hmem,by rw [ahead, hr]; rfl,by simp,by simpa using hstart⟩
  refine of_ok hq (fun _ => .step hlength) (fun hnone => ?_) htook
  have hrest : (view i tokens c).rest = t :: tokens.drop (c.pos + 1) := hr
  rw [Parser.next, hrest, State.step]
  change Agrees i tokens (if c.fuel = 0 then _ else _) _ _
  split_ifs with hfuel
  · simp [Agrees, State.pass, hnone]
  · refine ⟨rfl,?_,hnone⟩
    rw [view, view, ← edge_succ ht]

lemma eat? {kind : Kind} (hkind : kind ≠ .endOfInput) :
    Follows i tokens (Cursor.eat? kind) (Parser.eat? kind) c fun o d =>
      ∀ t ∈ o, Took tokens c t d := by
  refine .peek h fun k hk => ?_
  split_ifs with heq
  · have hahead : ahead tokens c.pos ≠ .endOfInput := by
      rw [hk, heq]
      exact hkind
    exact ((next h hahead).mono fun t d _ ht => by simpa using ht).map
  · exact .pure (by simp)

end Look

lemma spanOf {start stop : Nat} (hle : start ≤ stop) :
    Follows i tokens (Cursor.spanOf start stop) (Parser.spanOf start stop) c fun span d =>
      span = ⟨start,stop⟩ ∧ d = c := by
  rw [Cursor.spanOf, Parser.spanOf, if_pos hle, if_pos hle]
  exact .pure ⟨rfl,rfl⟩

lemma spanFrom (h : Legible i tokens) {start : Nat} (hle : start ≤ edge tokens c.pos) :
    Follows i tokens (Cursor.spanFrom start) (Parser.spanFrom start) c fun span d =>
      span = ⟨start,edge tokens c.pos⟩ ∧ d = c := by
  intro hc
  rw [Cursor.spanFrom, h.lastStop_eq hc]
  exact spanOf hle hc

lemma reportAt (place : Nat) (diagnostic : Diagnostic) :
    Follows i tokens (Cursor.reportAt place diagnostic) (Parser.reportAt place diagnostic) c
      fun _ d => d.pos = c.pos := by
  by_cases hplace : c.reportedAt = some place
  · have hq : Cursor.reportAt place diagnostic i c = .ok () c := if_pos hplace
    refine of_ok hq .refl (fun hnone => ?_) rfl
    rw [Parser.reportAt, if_pos (show (view i tokens c).reportedAt = _ from hplace)]
    exact ⟨rfl,rfl,hnone⟩
  · have hq : Cursor.reportAt place diagnostic i c = .ok () { c with
        reportedAt := some place, diagnostics := c.diagnostics ++ [diagnostic] } := if_neg hplace
    refine of_ok hq ?_ (fun hnone => ?_) rfl
    · exact fun hc => ⟨hc,Nat.le_refl _,rfl,Nat.le_refl _,fun _ => id⟩
    · rw [Parser.reportAt, if_neg (show (view i tokens c).reportedAt ≠ _ from hplace)]
      exact ⟨rfl,rfl,hnone⟩

section Report

variable (h : Legible i tokens)
include h

lemma reportHere (kind : Diagnostic.Kind) (detail : Option String) :
    Follows i tokens (Cursor.reportHere kind detail) (Parser.reportHere kind detail) c
      fun _ d => d.pos = c.pos :=
  .here h (.reportAt _ _)

/-- What is not closed was opened by a token that was read. -/
lemma reportUnclosed (kind : Diagnostic.Kind) (note : String) {opened : Span}
    (hopened : opened.start ≤ edge tokens c.pos) :
    Follows i tokens (Cursor.reportUnclosed kind note opened)
      (Parser.reportUnclosed kind note opened) c fun _ _ => True := by
  have hspan := Nat.le_trans hopened (h.edge_le_stop c)
  let span := hereSpan (view i tokens c)
  by_cases hplace : c.reportedAt = some span.start
  · refine @congr _ _ _ _ (Pure.pure ()) _ (Pure.pure ()) _ _ ?_ ?_ (.pure trivial)
    · rw [Cursor.reportUnclosed, bind_apply, h.here_eq]
      exact congrFun (congrFun (if_pos (decide_eq_true hplace)) i) c
    · rw [Parser.reportUnclosed, Parser.here_eq]
      exact if_pos hplace
  · refine congr ?_ ?_ ((spanOf hspan).bind fun whole d _ _ =>
      (reportAt span.start (.report kind whole none [⟨note,opened⟩])).forget)
    · rw [Cursor.reportUnclosed, bind_apply, h.here_eq]
      exact congrFun (congrFun (if_neg (by simpa using hplace)) i) c
    · rw [Parser.reportUnclosed, Parser.here_eq]
      exact if_neg hplace

lemma expect {kind : Kind} (hkind : kind ≠ .endOfInput) (missing : Diagnostic.Kind) :
    Follows i tokens (Cursor.expect kind missing) (Parser.expect kind missing) c
      fun _ d => c.pos < d.pos := by
  refine (eat? h hkind).bind fun o d _ ho => ?_
  cases o with
  | some t => exact .pure (ho t rfl).pos
  | none => exact (reportHere h _ _).bind fun _ _ _ _ => .reject

lemma close {kind : Kind} (hkind : kind ≠ .endOfInput) (unclosed : Diagnostic.Kind)
    {opened : Span} (hopened : opened.start ≤ edge tokens c.pos) :
    Follows i tokens (Cursor.close kind unclosed opened) (Parser.close kind unclosed opened) c
      fun _ _ => True := by
  refine (eat? h hkind).bind fun o d hd _ => ?_
  cases o with
  | some t => exact .pure trivial
  | none =>
    have hopened' := Nat.le_trans hopened (h.edge_mono hd.pos)
    exact (reportUnclosed h _ _ hopened').bind fun _ _ _ _ => .reject

end Report

/-- A slice that lies within its text. -/
lemma slice {start stop : Nat} {text chars : List Char} {g : List Char → Cursor β}
    {p : Parser β} (hslice : Text.slice? start stop text = some chars)
    (hg : Follows i tokens (g chars) p c post') :
    Follows i tokens (Cursor.slice start stop text >>= g) p c post' := by
  refine congr ?_ rfl hg
  rw [Cursor.slice, hslice]
  rfl

/-! Loops. -/

lemma watched {goesOn : α → Bool} {turn : Cursor α} {step : Parser α}
    (h : Follows i tokens turn step c post)
    (hpost : ∀ v d, post v d → goesOn v = true → Progress c d) :
    Follows i tokens (Cursor.watched goesOn turn) step c post := by
  intro hc
  have hq := h hc
  rw [Cursor.watched]
  cases hturn : turn i c with
  | ok v d =>
    rw [hturn] at hq
    have hmoves : ¬ (goesOn v = true ∧ ¬ Progress c d) := fun hstuck =>
      hstuck.2 (hpost v d hq.2.2 hstuck.1)
    simp only [if_neg hmoves]
    exact hq
  | reject d | panic fault =>
    rw [hturn] at hq
    exact hq

end Follows

/-- How many turns a loop can still go on: one a token, and one that passes a limit. -/
def turnsLeft (tokens : List Token) (c : State) : Nat :=
  tokens.length - c.pos + if c.fatal = none then 1 else 0

/-- The turns that a loop is given are enough. -/
lemma Legible.turnsLeft_lt_budget (h : Legible i tokens) (c : State) :
    turnsLeft tokens c < i.marks.length - c.pos + 2 := by
  rw [turnsLeft, h.length_marks]
  split_ifs <;> omega

/-- Progress leaves fewer turns. -/
lemma turnsLeft_lt (ho : Onward tokens c d) (h : Progress c d) :
    turnsLeft tokens d < turnsLeft tokens c := by
  have hwithin := ho.within
  have hpos := ho.pos
  rw [turnsLeft, turnsLeft]
  cases hc : c.fatal with
  | some fault =>
    have hd := ho.fatal fault hc
    obtain hlt | ⟨hnone,-⟩ := h
    · simp [hd]
      omega
    · simp [hc] at hnone
  | none =>
    rw [if_pos rfl]
    obtain hlt | ⟨-,hd⟩ := h
    · split_ifs <;> omega
    · simp [hd]
      omega

/-- While no limit is passed, progress is a token read. -/
lemma Progress.pos_lt (h : Progress c d) (hd : d.fatal = none) : c.pos < d.pos :=
  h.resolve_right fun hfatal => hfatal.2 hd

namespace Follows

/-- A loop takes no more turns than are left. The one over the list needs one a token, as long as no
limit is passed. -/
lemma turns {turn : Cursor (Turn α)} {step : Parser (Turn α)}
    (hturn : ∀ d, Onward tokens c d → Follows i tokens turn step d fun v e =>
      goesOn v = true → Progress d e) {budget steps : Nat}
    (hbudget : turnsLeft tokens c < budget)
    (hsteps : c.fatal = none → tokens.length - c.pos < steps) :
    Follows i tokens (Cursor.turns turn budget) (Parser.turns step steps) c fun _ _ => True := by
  induction budget generalizing c steps with
  | zero => exact absurd hbudget (Nat.not_lt_zero _)
  | succ budget ih =>
    have hrun : ∀ n, (c.fatal = none → tokens.length - c.pos < n + 1) →
        Follows i tokens (Cursor.turns turn (budget + 1)) (Parser.turns step (n + 1)) c
          fun _ _ => True := by
      intro n hn hc
      refine ((hturn c (.refl hc)).watched fun _ _ => id).bind (fun v d ho hv => ?_) hc
      have hlater : goesOn v = true → Follows i tokens (Cursor.turns turn budget)
          (Parser.turns step n) d fun _ _ => True := by
        intro hgoes
        have hleft := turnsLeft_lt ho (hv hgoes)
        refine ih (fun e he => hturn e (ho.trans he)) (by omega) fun hd => ?_
        have hpos := (hv hgoes).pos_lt hd
        have hwithin := ho.within
        have hnone : c.fatal = none := by
          cases hfatal : c.fatal with
          | none => rfl
          | some fault => exact absurd (ho.fatal fault hfatal) (by simp [hd])
        have := hn hnone
        omega
      cases v with
      | done => exact .pure trivial
      | skip => exact hlater rfl
      | item a => exact (hlater rfl).map
    -- the other loop is out of steps only past a limit, where it does not count
    cases steps with
    | zero =>
      have hfatal : c.fatal ≠ none := fun hnone => absurd (hsteps hnone) (Nat.not_lt_zero _)
      exact of_fatal hfatal (hrun 0 fun hnone => absurd hnone hfatal)
    | succ n => exact hrun n hsteps

lemma loop (h : Legible i tokens) {turn : Cursor (Turn α)} {step : Parser (Turn α)}
    (hturn : ∀ d, Onward tokens c d → Follows i tokens turn step d fun v e =>
      goesOn v = true → Progress d e) :
    Follows i tokens (Cursor.loop turn) (Parser.loop step) c fun _ _ => True := by
  have hsteps : tokens.length - c.pos < (view i tokens c).rest.length + 1 := by
    rw [view, List.length_drop]
    exact Nat.lt_succ_self _
  exact congr rfl rfl (turns hturn (h.turnsLeft_lt_budget c) fun _ => hsteps)

end Follows

/-! Calls. -/

/-- The two readers keep together at some depth of calls. -/
def InStep (i : Input) (tokens : List Token) (depth : Nat) (q : Cursor α) (p : Parser α) : Prop :=
  ∀ c, c.depth = depth → Follows i tokens q p c fun _ _ => True

namespace InStep

variable {depth : Nat} {q : Cursor α} {p : Parser α}

/-- At the limit a call is given up, and the limit is passed. -/
lemma nested_stop (hdepth : i.recursionLimit ≤ depth) :
    InStep i tokens depth (nested q) (Parser.stop .tooDeep) := by
  rintro c rfl hc
  have hrun : nested q i c = .reject (c.pass .tooDeep) := by
    rw [nested, bind_apply, enter, if_pos hdepth]
    rfl
  rw [hrun]
  refine ⟨⟨hc,Nat.le_refl _,rfl,Nat.le_refl _,fun fault hfatal => ?_⟩,fun hnone => ?_⟩
  · simp [State.pass, hfatal]
  · simp [Agrees, Parser.stop, State.pass, hnone]

lemma nested (hdepth : depth < i.recursionLimit) (h : InStep i tokens (depth + 1) q p) :
    InStep i tokens depth (nested q) p := by
  rintro c rfl hc
  have hq := h { c with depth := c.depth + 1 } rfl hc
  have hrun : Cursor.nested q i c = match q i { c with depth := c.depth + 1 } with
      | .ok v d => .ok v { d with depth := d.depth - 1 }
      | .reject d => .reject { d with depth := d.depth - 1 }
      | .panic fault => .panic fault := by
    rw [Cursor.nested, bind_apply, enter, if_neg (Nat.not_le.mpr hdepth)]
    dsimp only
    rw [if_pos rfl, bind_apply, attempt]
    cases q i { c with depth := c.depth + 1 } <;> rfl
  have hleave : ∀ d, Onward tokens { c with depth := c.depth + 1 } d →
      Onward tokens c { d with depth := d.depth - 1 } := fun d ho =>
    ⟨ho.within,ho.pos,Nat.sub_eq_of_eq_add ho.depth,ho.fuel,ho.fatal⟩
  rw [hrun]
  cases hqc : q i { c with depth := c.depth + 1 } with
  | ok v d =>
    rw [hqc] at hq
    exact ⟨hleave d hq.1,hq.2.1,trivial⟩
  | reject d =>
    rw [hqc] at hq
    exact ⟨hleave d hq.1,hq.2⟩
  | panic fault =>
    rw [hqc] at hq
    exact hq

end InStep

end TreeRules.Cursor
