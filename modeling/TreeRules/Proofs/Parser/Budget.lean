import TreeRules.Proofs.Parser.Limits
import TreeRules.Proofs.Parser.Relation

/-! The limits on reading decide whether a file is read to its end, and nothing else. Every token is
paid for once; parsers with larger limits come to the same; and of fewer tokens than things may nest
only the limit on tokens can be hit. -/
namespace TreeRules.Parser

variable {α β : Type}

/-! What is paid. -/

/-- Each token that is read takes one from how many may be read. -/
def Paid (p : Parser α) : Prop :=
  ∀ s, match p s with
    | .ok _ t | .reject t => s.fuel + t.rest.length = t.fuel + s.rest.length
    | .stop _ => True

/-- Reading a token that is there. -/
lemma next_cons {s : State} {t : Token} {ts : List Token} (h : s.rest = t :: ts) :
    next s = if s.fuel = 0 then .stop .fuelExhausted
      else .ok t { s with rest := ts, lastStop := t.span.stop, fuel := s.fuel - 1 } := by
  rw [next, h]

lemma Paid.next : Paid next := by
  intro s
  cases hr : s.rest with
  | nil =>
    rw [Parser.next, hr]
    trivial
  | cons t ts =>
    rw [next_cons hr]
    split_ifs with hfuel
    · trivial
    · dsimp only
      rw [List.length_cons]
      omega

lemma Paid.bind {p : Parser α} {f : α → Parser β} (h : Paid p) (hf : ∀ a, Paid (f a)) :
    Paid (p >>= f) := by
  intro s
  have hp := h s
  rw [bind_apply]
  cases hps : p s with
  | ok a t =>
    rw [hps] at hp
    have hrun := hf a t
    dsimp only at hp ⊢
    cases hfs : f a t with
    | ok b u | reject u =>
      rw [hfs] at hrun
      dsimp only at hrun ⊢
      omega
    | stop fault => trivial
  | reject t =>
    rw [hps] at hp
    exact hp
  | stop fault => trivial

lemma respected_paid : Respected fun p _ => Paid p where
  still := by
    intro α p h s
    have hkeeps := h.keeps s
    cases hps : p s with
    | ok a t | reject t =>
      rw [hps] at hkeeps
      obtain ⟨hrest,hfuel⟩ := hkeeps
      dsimp only
      rw [hrest, hfuel]
    | stop fault => trivial
  next := Paid.next
  bind h hf := h.bind hf
  attempt := by
    intro α p _ h s
    have hp := h s
    rw [attempt]
    cases hps : p s with
    | ok a t | reject t | stop fault =>
      rw [hps] at hp
      exact hp
  onRest h := fun s => h s.rest s

/-! What larger limits change. -/

/-- With `k` more tokens that may be read `q` comes to what `p` comes to, unless `p` breaks off for
one of the `excused` faults. -/
def Agrees (excused : Fault → Prop) (k : Nat) (p q : Parser α) : Prop :=
  ∀ s, (∃ fault, excused fault ∧ p s = .stop fault) ∨ q (s.more k) = (p s).more k

section Agrees

variable {excused : Fault → Prop} {k : Nat}

lemma Agrees.next (hk : k = 0 ∨ excused .fuelExhausted) : Agrees excused k next next := by
  intro s
  cases hr : s.rest with
  | nil =>
    right
    rw [Parser.next, Parser.next, State.rest_more, hr]
    rfl
  | cons t ts =>
    rw [next_cons hr, next_cons ((State.rest_more k s).trans hr), State.fuel_more]
    by_cases hfuel : s.fuel = 0
    · rw [if_pos hfuel]
      rcases hk with rfl | he
      · right
        exact if_pos hfuel
      · left
        exact ⟨_,he,rfl⟩
    · right
      rw [if_neg hfuel, if_neg (by omega), show s.fuel + k - 1 = s.fuel - 1 + k by omega]
      rfl

lemma Agrees.bind {p q : Parser α} {f g : α → Parser β} (h : Agrees excused k p q)
    (hf : ∀ a, Agrees excused k (f a) (g a)) : Agrees excused k (p >>= f) (q >>= g) := by
  intro s
  rw [bind_apply, bind_apply]
  rcases h s with ⟨fault,he,hp⟩ | hp
  · left
    rw [hp]
    exact ⟨fault,he,rfl⟩
  · rw [hp]
    cases p s with
    | ok a t => exact hf a t
    | reject t => exact Or.inr rfl
    | stop fault => exact Or.inr rfl

end Agrees

/-! How the reading of a file ends. -/

/-- The parser never gives up. -/
def Settles (p : Parser α) : Prop := ∀ s t, p s ≠ .reject t

namespace Settles

lemma bind {p : Parser α} {f : α → Parser β} (h : Settles p) (hf : ∀ a, Settles (f a)) :
    Settles (p >>= f) := by
  intro s u
  rw [bind_apply]
  cases hps : p s with
  | ok a t => exact hf a t u
  | reject t => exact absurd hps (h s t)
  | stop fault => simp

lemma pure (a : α) : Settles (pure a) := by
  intro s t h
  cases h

lemma map {p : Parser α} {g : α → β} (h : Settles p) : Settles (g <$> p) :=
  h.bind fun a => .pure (g a)

lemma peek : Settles Parser.peek := fun s t => by simp [peek_eq]

lemma peekText : Settles Parser.peekText := by
  rintro ⟨_ | ⟨_,_⟩,_,_,_,_,_⟩ t h <;> cases h

lemma here : Settles Parser.here := fun s t => by simp [here_eq]

lemma atEnd : Settles Parser.atEnd := fun _ _ h => by cases h

lemma next : Settles Parser.next := by
  intro s t
  rw [Parser.next]
  split
  · simp
  · split_ifs <;> simp

lemma eat? (kind : Token.Kind) : Settles (Parser.eat? kind) := by
  refine peek.bind fun k => ?_
  split_ifs
  · exact next.map
  · exact .pure none

lemma spanOf (start stop : Nat) : Settles (Parser.spanOf start stop) := by
  intro s t
  rw [Parser.spanOf]
  split_ifs <;> rintro ⟨⟩

lemma spanFrom (start : Nat) : Settles (Parser.spanFrom start) :=
  fun s => spanOf start s.lastStop s

lemma reportAt (place : Nat) (d : Diagnostic) : Settles (Parser.reportAt place d) := by
  intro s t
  rw [Parser.reportAt]
  split_ifs <;> simp

lemma reportHere (kind : Diagnostic.Kind) (detail : Option String) :
    Settles (Parser.reportHere kind detail) := here.bind fun _ => reportAt _ _

lemma reportUnclosed (kind : Diagnostic.Kind) (note : String) (opened : Span) :
    Settles (Parser.reportUnclosed kind note opened) := by
  intro s t
  rw [Parser.reportUnclosed, here_eq]
  dsimp only
  split_ifs
  · simp
  · exact (spanOf _ _).bind (fun _ => reportAt _ _) s t

lemma attempt (p : Parser α) : Settles (Parser.attempt p) := by
  intro s t
  rw [Parser.attempt]
  cases p s <;> simp

lemma turns {step : Parser (Turn α)} (h : Settles step) (budget : Nat) :
    Settles (Parser.turns step budget) := by
  induction budget with
  | zero => rintro s t ⟨⟩
  | succ budget ih =>
    refine h.bind fun turn => ?_
    cases turn with
    | done => exact .pure []
    | skip => exact ih
    | item a => exact ih.map

lemma loop {step : Parser (Turn α)} (h : Settles step) : Settles (Parser.loop step) :=
  fun s => h.turns _ s

/-- A rule that cannot be read is skipped. -/
lemma rule (depth : Nat) : Settles (Parser.rule depth) := by
  have hadvance : ∀ count, Settles (advance count) := by
    intro count
    induction count with
    | zero => exact .pure ()
    | succ count ih => exact next.bind fun _ => ih
  refine here.bind fun _ => (attempt _).bind fun o => ?_
  cases o with
  | some body => exact (spanFrom _).bind fun _ => .pure _
  | none =>
    have hskip : Settles skipStatement := fun s => hadvance _ s
    exact hskip.bind fun _ => .pure none

lemma skipUnexpected : Settles Parser.skipUnexpected :=
  peekText.bind fun _ => (reportHere _ _).bind fun _ => next.bind fun _ => .pure ()

lemma block (depth : Nat) : Settles (Parser.block depth) := by
  have hname : Settles blockName := by
    refine (eat? _).bind fun o => ?_
    cases o with
    | some t => exact .pure _
    | none => exact (reportHere _ _).bind fun _ => .pure none
  have hturn : ∀ opened, Settles (blockTurn depth opened) := by
    intro opened
    refine atEnd.bind fun e => ?_
    split_ifs
    · exact (reportUnclosed _ _ _).bind fun _ => .pure _
    · refine peek.bind fun k => ?_
      split
      · exact next.bind fun _ => .pure _
      · split_ifs
        · exact (rule depth).map
        · exact skipUnexpected.bind fun _ => .pure _
  refine next.bind fun _ => hname.bind fun name => (eat? _).bind fun o => ?_
  cases o with
  | none => exact (reportHere _ _).bind fun _ => .pure none
  | some opened => exact (hturn _).loop.bind fun _ => .pure _

lemma fileTurn (depth : Nat) : Settles (Parser.fileTurn depth) := by
  refine atEnd.bind fun e => ?_
  split_ifs
  · exact .pure _
  · refine peek.bind fun k => ?_
    split
    · exact (block depth).bind fun _ => .pure _
    · split_ifs
      · exact (rule depth).bind fun _ => .pure _
      · exact skipUnexpected.bind fun _ => .pure _

end Settles

/-- What `p >>= f` yields is yielded by `f` on what `p` yields. -/
lemma exists_of_bind {p : Parser α} {f : α → Parser β} {s u : State} {b : β}
    (h : (p >>= f) s = .ok b u) : ∃ a t, p s = .ok a t ∧ f a t = .ok b u := by
  rw [bind_apply] at h
  cases hps : p s with
  | ok a t =>
    rw [hps] at h
    exact ⟨a,t,rfl,h⟩
  | reject t | stop fault =>
    rw [hps] at h
    cases h

lemma exists_of_map {p : Parser α} {g : α → β} {s u : State} {b : β}
    (h : (g <$> p) s = .ok b u) : ∃ a, p s = .ok a u ∧ g a = b := by
  obtain ⟨a,t,hp,ha⟩ := exists_of_bind (f := fun a => pure (g a)) h
  cases ha
  exact ⟨a,hp,rfl⟩

/-- A loop that comes to its end took a last turn. -/
lemma exists_done_of_turns {step : Parser (Turn α)} {budget : Nat} {s t : State} {as : List α}
    (h : turns step budget s = .ok as t) : ∃ u, step u = .ok .done t := by
  induction budget generalizing s as with
  | zero => cases h
  | succ budget ih =>
    obtain ⟨turn,u,hstep,hturn⟩ := exists_of_bind h
    cases turn with
    | done =>
      cases hturn
      exact ⟨s,hstep⟩
    | skip => exact ih hturn
    | item a =>
      obtain ⟨bs,hrun,-⟩ := exists_of_map hturn
      exact ih hrun

lemma ofOption_ne_done (o : Option α) : Turn.ofOption o ≠ .done := by
  cases o <;> rintro ⟨⟩

/-- Only where no token is left is a turn the last one of a file. -/
lemma rest_of_fileTurn_done {depth : Nat} {s t : State} (h : fileTurn depth s = .ok .done t) :
    t.rest = [] := by
  obtain ⟨e,_,hend,h⟩ := exists_of_bind h
  cases hend
  split_ifs at h with hrest
  · cases h
    exact List.isEmpty_iff.mp hrest
  · obtain ⟨kind,u,-,h⟩ := exists_of_bind h
    split at h
    · obtain ⟨b,v,-,h⟩ := exists_of_bind h
      injection h with hdone
      exact absurd hdone (ofOption_ne_done _)
    · split_ifs at h
      · obtain ⟨r,v,-,h⟩ := exists_of_bind h
        injection h with hdone
        exact absurd hdone (ofOption_ne_done _)
      · obtain ⟨_,v,-,h⟩ := exists_of_bind h
        cases h

/-! Sources. -/

section Source

variable (source : String) (config : Config)

/-- How many tokens of the source are neither blank nor comment. -/
def tokenCount : Nat := (significant source).length

/-- What the reading of a source comes to. -/
def reading : Outcome (List Entry) :=
  loop (fileTurn config.recursionLimit)
    (State.start (lex source) (byteLength source.toList) config.parseFuel)

lemma parse_eq : parse source config = match reading source config with
    | .ok entries s =>
      .ok ⟨⟨group config.defaultLanguage entries⟩,s.diagnostics,config.parseFuel - s.fuel⟩
    | .reject s => .ok ⟨⟨[]⟩,s.diagnostics,config.parseFuel - s.fuel⟩
    | .stop fault => .error fault := rfl

variable {source config}

/-- What is read to its end is read with all of its tokens, each paid for. -/
lemma fuel_of_reading {entries : List Entry} {t : State}
    (h : reading source config = .ok entries t) :
    config.parseFuel = t.fuel + tokenCount source := by
  obtain ⟨u,hdone⟩ := exists_done_of_turns h
  have hrest := rest_of_fileTurn_done hdone
  have hpaid : Paid (loop (fileTurn config.recursionLimit)) :=
    @Respected.file _ respected_paid _ 0 (respected_paid.still (.stop _))
      (respected_paid.still (.stop _))
  have hrun := hpaid (State.start (lex source) (byteLength source.toList) config.parseFuel)
  rw [show loop _ _ = _ from h] at hrun
  dsimp only at hrun
  rwa [hrest] at hrun

/-- A source is read to its end, or a limit is hit. -/
lemma reading_cases (source : String) (config : Config) :
    (∃ entries t, reading source config = .ok entries t) ∨
      reading source config = .stop .fuelExhausted ∨ reading source config = .stop .tooDeep := by
  have hwp := Wp.file config.recursionLimit (good_start source config.parseFuel)
  rw [Wp] at hwp
  cases hrun : reading source config with
  | ok entries t => exact Or.inl ⟨entries,t,rfl⟩
  | reject t => exact absurd hrun ((Settles.fileTurn _).loop _ _)
  | stop fault =>
    rw [show loop _ _ = _ from hrun] at hwp
    rcases hwp with rfl | rfl
    · exact Or.inr (Or.inl rfl)
    · exact Or.inr (Or.inr rfl)

/-- What a source that was read to its end is parsed to. -/
lemma parse_of_reading {entries : List Entry} {t : State}
    (h : reading source config = .ok entries t) :
    parse source config =
      .ok ⟨⟨group config.defaultLanguage entries⟩,t.diagnostics,tokenCount source⟩ := by
  have hfuel := fuel_of_reading h
  rw [parse_eq, h]
  dsimp only
  rw [show config.parseFuel - t.fuel = tokenCount source by omega]

lemma parse_of_stop {fault : Fault} (h : reading source config = .stop fault) :
    parse source config = .error fault := by
  rw [parse_eq, h]

lemma exists_reading {p : Parse} (h : parse source config = .ok p) :
    ∃ entries t, reading source config = .ok entries t ∧
      p = ⟨⟨group config.defaultLanguage entries⟩,t.diagnostics,tokenCount source⟩ := by
  rcases reading_cases source config with ⟨entries,t,hrun⟩ | hrun | hrun
  · rw [parse_of_reading hrun] at h
    cases h
    exact ⟨entries,t,hrun,rfl⟩
  · rw [parse_of_stop hrun] at h
    cases h
  · rw [parse_of_stop hrun] at h
    cases h

end Source

end TreeRules.Parser
