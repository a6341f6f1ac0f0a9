import TreeRules.Proofs.Parser.Rule

/-! Files: the parser reports nothing exactly where the tokens derive from the grammar, and then it
yields what they write. -/
namespace TreeRules.Parser

open Grammar
open Token (Kind)

/-! Grouping. -/

/-- The end of a file. -/
def FileEnd (ts : List Token) (t : State) : Prop := ts = [] ∧ t.rest = []

lemma Wp.fileTurn (depth : Nat) {s : State} (hs : Good s) :
    Wp (Parser.fileTurn depth) s (TurnPost EntryOf FileEnd) := by
  refine .atEnd ?_
  split_ifs with hend
  · exact .pure hs fun _ => ⟨rfl,by simpa using hend⟩
  · refine .peek ?_
    split
    next hk =>
      refine (Wp.block depth hs hk).bind ?_
      rintro ts (_ | b) t ht - hb
      · exact .pure ht ⟨by simpa using hb.1,hb.2⟩
      · exact .pure ht ⟨by simpa using hb.1,fun hd => by simpa using hb.2 hd⟩
    next =>
      split_ifs with hitem
      · refine (Wp.rule depth hs hitem).bind ?_
        rintro ts (_ | r) t ht - hrule
        · exact .pure ht ⟨by simpa using hrule.1,hrule.2⟩
        · exact .pure ht ⟨by simpa using hrule.1,fun hd => by simpa using .loose (hrule.2 hd)⟩
      · refine (Wp.skipUnexpected hs (by simpa using hend)).bind ?_
        rintro ts - t ht - ⟨hts,hd⟩
        exact .pure ht ⟨by simpa using hts,hd⟩

lemma entryOf_ne_nil {ts : List Token} {e : Entry} (h : EntryOf ts e) : ts ≠ [] := by
  cases h with
  | loose hr => exact ruleOf_ne_nil hr
  | block => simp

lemma Yields.fileTurn (depth : Nat) {ts rest : List Token} {e : Entry} (h : EntryOf ts e)
    {s : State} (hs : Good s) (hr : s.rest = ts ++ rest) :
    Yields (Parser.fileTurn depth) s (.item e) (s.past ts rest) := by
  have hempty : ¬ s.rest.isEmpty = true := by simp [hr, entryOf_ne_nil h]
  refine .atEnd ?_
  rw [if_neg hempty]
  refine .peek ?_
  cases e with
  | block b =>
    have hblock := Yields.block depth h hs hr
    obtain _ | ⟨hk,-,-,-,-⟩ := h
    rw [show headKind s.rest = .kwLanguage by rw [hr]; exact hk]
    exact .bind hblock (.pure _ _)
  | loose r =>
    obtain ⟨hrule⟩ := h
    have hitem := startsItem_ruleOf hrule rest
    rw [← hr] at hitem
    split
    next hk =>
      rw [hk] at hitem
      cases hitem
    next =>
      rw [if_pos hitem]
      exact .bind (.rule depth hrule hs hr) (.pure _ _)

lemma Yields.fileTurn_done (depth : Nat) {s : State} (hr : s.rest = []) :
    Yields (Parser.fileTurn depth) s .done (s.past [] []) := by
  rw [past_nil hr]
  refine .atEnd ?_
  rw [if_pos (by simp [hr])]
  exact .pure _ _

/-! Files. -/

lemma Wp.file (depth : Nat) {s : State} (hs : Good s) :
    Wp (Parser.loop (Parser.fileTurn depth)) s fun _ entries t =>
      t.diagnostics = [] → FileOf s.rest entries := by
  refine (Wp.loop 0 (fun t ht _ => Wp.fileTurn depth ht) hs (Nat.zero_le _)).mono ?_
  intro ts entries t _ hm h hd
  obtain ⟨us,_,rfl,hus,rfl,hrest⟩ := h hd
  rw [hm.rest, hrest, List.append_nil, List.append_nil]
  exact hus

lemma Yields.file (depth : Nat) {s : State} (hs : Good s) {entries : List Entry}
    (h : FileOf s.rest entries) :
    Yields (Parser.loop (Parser.fileTurn depth)) s entries (s.past s.rest []) := by
  have hloop := Yields.loop (F := fun _ => True) [] [] (fun _ _ => entryOf_ne_nil)
    (fun _ _ _ => trivial) (fun _ _ he s later hs hr _ => Yields.fileTurn depth he hs hr)
    (fun s _ hr => Yields.fileTurn_done depth hr) h hs (by simp)
  rwa [List.append_nil] at hloop

/-- Reading starts at a state that can be come to. -/
lemma good_start (source : String) (fuel : Nat) :
    Good (State.start (lex source) (byteLength source.toList) fuel) :=
  ⟨(Lexer.inOrder_lex source).filter _,
    fun t ht => Lexer.kind_lex_ne source t (List.mem_filter.mp ht).1,by simp [State.start]⟩

lemma ne_error_of_map_toOption {α β : Type} {outcome : Except Fault α} {f : α → β} {b : β}
    (h : outcome.toOption.map f = some b) (fault : Fault) : outcome ≠ .error fault := by
  rintro rfl
  cases h

/-- The tokens that mean something to the grammar. -/
def significant (source : String) : List Token := (lex source).filter (!·.isTrivia)

end TreeRules.Parser
