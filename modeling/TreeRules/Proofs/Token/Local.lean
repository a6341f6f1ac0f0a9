import TreeRules.Proofs.Rule.Moved
import TreeRules.Proofs.Token.Pieces
import TreeRules.Proofs.Token.Slices

/-! Lexing is local. Tokens next to one another, none of them garbage, are the tokens of the text
that they take up, whatever stands before and behind it. -/
namespace TreeRules.Lexer

open Token (Kind Tile)

variable {c : Char} {cs after : List Char} {kind : Kind}

/-! What is read off a text does not change if the text is cut off behind it. -/

lemma takeWhile_cut {p : Char → Bool} (h : ((cs ++ after).takeWhile p).length ≤ cs.length) :
    cs.takeWhile p = (cs ++ after).takeWhile p := by
  rw [List.takeWhile_append] at h ⊢
  split_ifs at h ⊢ with hall
  · have hnil : after.takeWhile p = [] := by
      rw [List.length_append] at h
      exact List.eq_nil_of_length_eq_zero (by omega)
    rw [hnil, List.append_nil]
    exact (List.takeWhile_prefix p).eq_of_length hall
  · rfl

/-- A string takes at least the quote that ends it. -/
lemma lt_length_scanString {seen : Nat} (h : (scanString seen cs).kind ≠ .garbage) :
    seen < (scanString seen cs).length := by
  obtain ⟨-,n,hn,body,-,htake⟩ := mem_of_scanString seen cs h
  have hpos : n ≠ 0 := by
    rintro rfl
    simp at htake
  omega

lemma scanString_cut (seen : Nat) (h : (scanString seen (cs ++ after)).kind ≠ .garbage)
    (hlength : (scanString seen (cs ++ after)).length ≤ seen + cs.length) :
    scanString seen cs = scanString seen (cs ++ after) := by
  fun_induction scanString seen cs with
  | case1 seen =>
    have := lt_length_scanString h
    rw [List.length_nil] at hlength
    omega
  | case2 seen cs => rfl
  | case3 seen =>
    -- the backslash is followed by what is cut off, so the string ends there
    cases after with
    | nil => rfl
    | cons d ds =>
      by_cases hd : d = '\n'
      · subst hd
        exact absurd rfl h
      · have hnext : scanString seen ('\\' :: d :: ds) = scanString (seen + 2) ds :=
          scanString.eq_5 _ _ _ hd
        rw [List.cons_append, List.nil_append, hnext] at h hlength
        have := lt_length_scanString h
        simp only [List.length_singleton] at hlength
        omega
  | case4 seen cs => rfl
  | case5 seen d cs hd ih =>
    have hnext : scanString seen ('\\' :: d :: cs ++ after) = scanString (seen + 2) (cs ++ after) :=
      scanString.eq_5 _ _ _ hd
    rw [hnext] at h hlength ⊢
    exact ih h (by simp only [List.length_cons] at hlength; omega)
  | case6 seen d cs hquote hslash _ hslash' ih =>
    have hd : d ≠ '\\' := by
      cases cs with
      | nil => exact fun hd => hslash hd rfl
      | cons e es => exact fun hd => hslash' e es hd rfl
    have hnext : scanString seen (d :: cs ++ after) = scanString (seen + 1) (cs ++ after) :=
      scanString.eq_6 _ _ _ hquote (fun hd' => absurd hd' hd) (fun _ hd' => absurd hd' hd)
        fun _ _ hd' => absurd hd' hd
    rw [hnext] at h hlength ⊢
    exact ih h (by simp only [List.length_cons] at hlength; omega)

lemma scanChar_cut (h : (scanChar (cs ++ after)).kind ≠ .garbage)
    (hlength : (scanChar (cs ++ after)).length ≤ cs.length + 1) :
    scanChar cs = scanChar (cs ++ after) := by
  revert h hlength
  generalize hrest : cs ++ after = rest
  fun_cases scanChar rest with
  | case2 d tail hd =>
    intro _ hlength
    rcases cs with _ | ⟨e,_ | ⟨f,_ | ⟨g,cs⟩⟩⟩
    case cons.cons.cons =>
      cases hrest
      exact scanChar.eq_2 _ _ hd
    all_goals simp at hlength
  | case6 d tail hescape hslash hquote =>
    intro _ hlength
    rcases cs with _ | ⟨e,_ | ⟨f,cs⟩⟩
    case cons.cons =>
      cases hrest
      exact scanChar.eq_6 _ _ (fun _ hd => absurd hd hslash) hslash hquote
    all_goals simp at hlength
  | _ => exact fun h => absurd rfl h

/-- A token that is no garbage and does not reach into what is cut off. -/
lemma scan_cut (h : (scan c (cs ++ after)).kind ≠ .garbage)
    (hlength : (scan c (cs ++ after)).length ≤ cs.length + 1) :
    scan c cs = scan c (cs ++ after) := by
  revert h hlength
  generalize hrest : cs ++ after = rest
  fun_cases scan c rest with
  | case1 c rest kind hk => exact fun _ _ => scan_punctuation hk cs
  | case2 c rest hnone hstart word =>
    intro _ hlength
    subst hrest
    have hword : cs.takeWhile isIdChar = _ := takeWhile_cut (Nat.le_of_succ_le_succ hlength)
    unfold scan
    rw [hnone]
    dsimp only
    rw [if_pos hstart, hword]
  | case3 c rest hnone hstart hblank =>
    intro _ hlength
    subst hrest
    have hrun : cs.takeWhile isBlank = (cs ++ after).takeWhile isBlank :=
      takeWhile_cut (by dsimp only at hlength; omega)
    unfold scan
    rw [hnone]
    dsimp only
    rw [if_neg hstart, if_pos hblank, hrun]
  | case4 tail =>
    intro _ hlength
    obtain ⟨d,ds,rfl⟩ := List.exists_cons_of_length_pos (l := cs)
      (by dsimp only at hlength; omega)
    cases hrest
    rfl
  | case5 tail =>
    intro _ hlength
    obtain ⟨d,ds,rfl⟩ := List.exists_cons_of_length_pos (l := cs)
      (by dsimp only at hlength; omega)
    obtain ⟨e,es,rfl⟩ := List.exists_cons_of_length_pos (l := ds)
      (by simp only [List.length_cons] at hlength; omega)
    cases hrest
    rfl
  | case6 tail htail =>
    intro _ hlength
    obtain ⟨d,ds,rfl⟩ := List.exists_cons_of_length_pos (l := cs)
      (by dsimp only at hlength; omega)
    cases hrest
    cases ds with
    | nil => rfl
    | cons e es =>
      have he : e ≠ '.' := fun he => htail (es ++ after) (by rw [he]; rfl)
      simp [scan, he, punctuation?, isIdStart, isBlank]
  | case7 tail =>
    intro _ hlength
    obtain ⟨d,ds,rfl⟩ := List.exists_cons_of_length_pos (l := cs)
      (by dsimp only at hlength; omega)
    cases hrest
    have hrun : ds.takeWhile (· != '\n') = (ds ++ after).takeWhile (· != '\n') :=
      takeWhile_cut (by simp only [List.length_cons, List.append_eq] at hlength; omega)
    change (⟨.lineComment,2 + (ds.takeWhile (· != '\n')).length⟩ : Scan) = _
    rw [hrun]
    rfl
  | case8 => exact fun h => absurd rfl h
  | case9 rest digits hdigits =>
    intro _ hlength
    subst hrest
    have hrun : cs.takeWhile Char.isDigit = digits := takeWhile_cut (by
      simp only [digits] at hlength ⊢
      omega)
    change (if (cs.takeWhile Char.isDigit).isEmpty then (⟨.garbage,1⟩ : Scan)
      else ⟨.hole,1 + (cs.takeWhile Char.isDigit).length⟩) = _
    rw [hrun, if_neg hdigits]
  | case10 rest =>
    intro h hlength
    subst hrest
    exact scanString_cut 1 h (by omega)
  | case11 rest =>
    intro h hlength
    subst hrest
    exact scanChar_cut h hlength
  | case12 => exact fun h => absurd rfl h

/-! No piece reaches behind the text. -/

lemma scanString_length_le (seen : Nat) (cs : List Char) :
    (scanString seen cs).length ≤ seen + cs.length := by
  fun_induction scanString seen cs with
  | case5 _ _ _ _ ih | case6 _ _ _ _ _ _ _ ih =>
    simp only [List.length_cons]
    omega
  | _ => simp

lemma scanChar_length_le (cs : List Char) : (scanChar cs).length ≤ cs.length + 1 := by
  fun_cases scanChar cs <;> simp

lemma scan_length_le (c : Char) (cs : List Char) : (scan c cs).length ≤ cs.length + 1 := by
  have hrun : ∀ (p : Char → Bool) (ds : List Char), (ds.takeWhile p).length ≤ ds.length :=
    fun p ds => (List.takeWhile_prefix p).length_le
  fun_cases scan c cs with
  | case2 c cs => exact Nat.succ_le_succ (hrun _ cs)
  | case3 c cs =>
    have := hrun isBlank cs
    dsimp only
    omega
  | case7 cs =>
    have := hrun (· != '\n') cs
    simp only [List.length_cons]
    omega
  | case9 cs digits =>
    have : digits.length ≤ cs.length := hrun Char.isDigit cs
    dsimp only
    omega
  | case10 cs =>
    have := scanString_length_le 1 cs
    omega
  | case11 cs => exact scanChar_length_le cs
  | _ => simp

/-! Pieces. -/

/-- What a text begins with, and what is behind it. -/
lemma exists_run (c : Char) (cs : List Char) :
    ∃ run rest, cs = run ++ rest ∧ (scan c cs).length = run.length + 1 := by
  obtain ⟨n,hn⟩ := Nat.exists_eq_succ_of_ne_zero (Nat.ne_of_gt (scan_length_pos c cs))
  have hle := scan_length_le c cs
  refine ⟨cs.take n,cs.drop n,(List.take_append_drop n cs).symm,?_⟩
  rw [hn, List.length_take]
  omega

lemma pieces_cons (offset : Nat) {run rest : List Char}
    (h : scan c (run ++ rest) = ⟨kind,run.length + 1⟩) :
    pieces 0 offset (c :: (run ++ rest)) =
      tokenAt kind (run.length + 1) offset (c :: run) ::
        pieces 0 (offset + byteLength (c :: run)) rest := by
  rw [pieces, h, Nat.add_sub_cancel, pieces_skip]
  simp [tokenAt, Nat.add_assoc]

/-- The pieces behind some of the first are those of the text behind these. -/
lemma exists_of_pieces_append {offset : Nat} {chars : List Char} {ts us : List Token}
    (h : pieces 0 offset chars = ts ++ us) :
    ∃ before after, chars = before ++ after ∧
      us = pieces 0 (offset + byteLength before) after := by
  induction ts generalizing offset chars with
  | nil => exact ⟨[],chars,rfl,by simpa using h.symm⟩
  | cons t ts ih =>
    cases chars with
    | nil => simp [pieces] at h
    | cons c cs =>
      obtain ⟨run,rest,rfl,hlength⟩ := exists_run c cs
      rw [pieces_cons offset (by rw [← hlength])] at h
      obtain ⟨before,after,rfl,hus⟩ := ih (List.cons.inj h).2
      refine ⟨c :: (run ++ before),after,by simp,?_⟩
      rw [hus]
      simp [Nat.add_assoc]

/-- The first pieces, none of them garbage, are those of the text that they take up. -/
lemma exists_of_pieces_cut {offset : Nat} {chars : List Char} {ts us : List Token}
    (h : pieces 0 offset chars = ts ++ us) (hts : ∀ t ∈ ts, t.kind ≠ .garbage) :
    ∃ text after, chars = text ++ after ∧ ts = pieces 0 offset text := by
  induction ts generalizing offset chars with
  | nil => exact ⟨[],chars,rfl,by simp [pieces]⟩
  | cons t ts ih =>
    rw [List.forall_mem_cons] at hts
    cases chars with
    | nil => simp [pieces] at h
    | cons c cs =>
      obtain ⟨run,rest,rfl,hlength⟩ := exists_run c cs
      rw [pieces_cons offset (by rw [← hlength])] at h
      obtain ⟨rfl,hrest⟩ := List.cons.inj h
      obtain ⟨text,after,rfl,hpieces⟩ := ih hrest hts.2
      refine ⟨c :: (run ++ text),after,by simp,?_⟩
      have hscan : scan c (run ++ text) = scan c (run ++ text ++ after) :=
        scan_cut (by simpa [tokenAt] using hts.1) (by simp [hlength])
      rw [← List.append_assoc] at hlength
      rw [hpieces, pieces_cons offset (by rw [hscan, ← hlength])]
      simp

/-- Further on in a text its pieces are the same. -/
lemma pieces_forward (k skip offset : Nat) (chars : List Char) :
    pieces skip (offset + k) chars = (pieces skip offset chars).map (Token.forward k) := by
  fun_induction pieces skip offset chars with
  | case1 => simp [pieces]
  | case2 skip offset c cs ih =>
    rw [pieces, ← ih, Nat.add_right_comm]
  | case3 offset c cs s ih =>
    rw [pieces, List.map_cons, ← ih, Nat.add_right_comm offset]
    have hfirst : tokenAt s.kind s.length (offset + k) (c :: cs) =
        (tokenAt s.kind s.length offset (c :: cs)).forward k := by
      simp [tokenAt, Token.forward, Span.forward, Nat.add_right_comm]
    rw [← hfirst]

/-! Joining garbage. -/

lemma eq_of_joinGarbage {t u : Token} {ts us : List Token} (h : joinGarbage t ts = u :: us)
    (hu : u.kind ≠ .garbage) : t = u ∧ ts = us := by
  revert h
  fun_cases joinGarbage t ts with
  | case2 v vs hk =>
    intro h
    obtain ⟨rfl,-⟩ := List.cons.inj h
    exact absurd rfl hu
  | _ => exact List.cons.inj

lemma exists_of_join_cut {ps ts us : List Token} (h : ps.foldr joinGarbage [] = ts ++ us)
    (hts : ∀ t ∈ ts, t.kind ≠ .garbage) : ∃ vs, ps = ts ++ vs := by
  induction ts generalizing ps with
  | nil => exact ⟨ps,rfl⟩
  | cons t ts ih =>
    rw [List.forall_mem_cons] at hts
    cases ps with
    | nil => cases h
    | cons p ps =>
      obtain ⟨rfl,hrest⟩ := eq_of_joinGarbage h hts.1
      obtain ⟨vs,rfl⟩ := ih hrest hts.2
      exact ⟨vs,rfl⟩

/-- Tokens next to one another, none of them garbage, are pieces next to one another. -/
lemma exists_of_join {ps before ts after : List Token}
    (h : ps.foldr joinGarbage [] = before ++ (ts ++ after)) (hne : ts ≠ [])
    (hts : ∀ t ∈ ts, t.kind ≠ .garbage) : ∃ us vs, ps = us ++ (ts ++ vs) := by
  induction ps generalizing before with
  | nil =>
    rw [List.foldr_nil, eq_comm, List.append_eq_nil_iff, List.append_eq_nil_iff] at h
    exact absurd h.2.1 hne
  | cons p ps ih =>
    cases before with
    | nil =>
      rw [List.nil_append] at h
      obtain ⟨vs,hps⟩ := exists_of_join_cut h hts
      exact ⟨[],vs,hps⟩
    | cons b bs =>
      -- one piece more stands in front, or it makes the garbage in front longer
      have hrest : ∃ before, ps.foldr joinGarbage [] = before ++ (ts ++ after) := by
        rw [List.foldr_cons, List.cons_append] at h
        generalize ps.foldr joinGarbage [] = us at h
        revert h
        fun_cases joinGarbage p us with
        | case1 | case3 => exact fun h => ⟨bs,(List.cons.inj h).2⟩
        | case2 u us hk => exact fun h => ⟨u :: bs,congrArg (u :: ·) (List.cons.inj h).2⟩
      obtain ⟨before,hrest⟩ := hrest
      obtain ⟨us,vs,rfl⟩ := ih hrest
      exact ⟨p :: us,vs,rfl⟩

/-- Tokens of a source next to one another, none of them garbage, are the tokens of the text that
they take up. -/
theorem lex_local {source : String} {front ts back : List Token}
    (h : lex source = front ++ (ts ++ back)) (hne : ts ≠ []) (hts : ∀ t ∈ ts, t.kind ≠ .garbage) :
    ∃ before text after, source.toList = before ++ text ++ after ∧
      ts = (lex (String.ofList text)).map (Token.forward (byteLength before)) ∧
      Tile (byteLength before) text ts := by
  obtain ⟨us,vs,hpieces⟩ := exists_of_join h hne hts
  obtain ⟨before,rest,hsource,hrest⟩ := exists_of_pieces_append hpieces
  obtain ⟨text,after,rfl,htext⟩ := exists_of_pieces_cut hrest.symm hts
  rw [Nat.zero_add] at htext
  have hmoved : ts = (pieces 0 0 text).map (Token.forward (byteLength before)) := by
    rw [htext, ← pieces_forward, Nat.zero_add]
  refine ⟨before,text,after,by rw [hsource, List.append_assoc],?_,?_⟩
  · have hjoined : (pieces 0 0 text).foldr joinGarbage [] = pieces 0 0 text := by
      refine join_eq_self fun t ht => ?_
      rw [hmoved, List.forall_mem_map] at hts
      exact hts t ht
    rw [lex, String.toList_ofList, hjoined, hmoved]
  · have htile := tile_pieces 0 (byteLength before) text
    rw [List.take_zero, List.drop_zero, byteLength_nil, Nat.add_zero, ← htext] at htile
    exact htile

end TreeRules.Lexer
