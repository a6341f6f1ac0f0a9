import TreeRules.Proofs.Token.Local
import TreeRules.Proofs.Token.Rules

/-! Lexing loses nothing. The tokens of a source tile it from its first byte to its last, neighbouring
pieces of garbage are joined, and each other token is what the rules make of the text from its start
on. -/
namespace TreeRules

lemma utf8ByteSize_ofList (chars : List Char) :
    (String.ofList chars).utf8ByteSize = byteLength chars := by
  induction chars with
  | nil => rfl
  | cons c cs ih => simp [String.ofList_cons, ih]

/-- The bytes before some characters of a source end where a character does. -/
lemma isValid_byteLength {source : String} {before after : List Char}
    (h : source.toList = before ++ after) :
    String.Pos.Raw.IsValid source ⟨byteLength before⟩ := by
  refine String.Pos.Raw.isValid_iff_exists_append.mpr
    ⟨String.ofList before,String.ofList after,?_,?_⟩
  · rw [← String.ofList_append, ← h, String.ofList_toList]
  · apply String.Pos.Raw.ext
    exact (utf8ByteSize_ofList before).symm

namespace Token

/-- What a source has at the span of a token. -/
def textIn? (source : String) (t : Token) : Option (List Char) :=
  Text.slice? t.span.start t.span.stop source.toList

/-- Tokens that tile a source as its rules say. -/
structure Tiling (source : String) (ts : List Token) : Prop where
  nonempty : ∀ t ∈ ts, t.span.start < t.span.stop
  first : ∀ t ∈ ts.head?, t.span.start = 0
  adjacent : ts.IsChain fun t u => t.span.stop = u.span.start
  last : ∀ t ∈ ts.getLast?, t.span.stop = source.utf8ByteSize
  boundaries : ∀ t ∈ ts, String.Pos.Raw.IsValid source ⟨t.span.start⟩ ∧
    String.Pos.Raw.IsValid source ⟨t.span.stop⟩
  /-- The texts of all tokens make up the source. -/
  whole : ∃ texts : List (List Char), ts.map (textIn? source) = texts.map some ∧
    texts.flatten = source.toList
  joined : ts.IsChain fun t u => ¬ (t.kind = .garbage ∧ u.kind = .garbage)
  kind_ne : ∀ t ∈ ts, t.kind ≠ .endOfInput
  /-- A token is the longest that some rule makes of the text from its start on. -/
  munches : ∀ t ∈ ts, t.kind ≠ .garbage → ∃ before after text,
    Text.cut? t.span.start source.toList = some (before,after) ∧
      textIn? source t = some text ∧ Munches t.kind text after
  /-- Where garbage starts, no rule makes anything. -/
  unmatched : ∀ t ∈ ts, t.kind = .garbage → ∃ before after,
    Text.cut? t.span.start source.toList = some (before,after) ∧
      ∀ (kind : Kind) word, word <+: after → word ∉ kind.rule

variable {offset : Nat} {chars : List Char} {ts : List Token}

namespace Tile

lemma flatten (h : Tile offset chars ts) : (ts.map fun t => t.text.toList).flatten = chars := by
  induction ts generalizing offset chars with
  | nil => exact h.symm
  | cons t ts ih =>
    obtain ⟨after,rfl,-,hrest⟩ := h
    rw [List.map_cons, List.flatten_cons, ih hrest]

lemma start_of_head? (h : Tile offset chars ts) : ∀ t ∈ ts.head?, t.span.start = offset := by
  cases ts with
  | nil => simp
  | cons t ts =>
    obtain ⟨-,-,hspan,-⟩ := h
    rintro _ ⟨rfl⟩
    rw [hspan]

lemma adjacent (h : Tile offset chars ts) : ts.IsChain fun t u => t.span.stop = u.span.start := by
  induction ts generalizing offset chars with
  | nil => exact .nil
  | cons t ts ih =>
    obtain ⟨after,-,hspan,hrest⟩ := h
    cases ts with
    | nil => exact .singleton t
    | cons u ts =>
      refine .cons_cons ?_ (ih hrest)
      rw [hspan, hrest.start_of_head? u rfl]

lemma stop_of_getLast? (h : Tile offset chars ts) :
    ∀ t ∈ ts.getLast?, t.span.stop = offset + byteLength chars := by
  induction ts generalizing offset chars with
  | nil => simp
  | cons t ts ih =>
    obtain ⟨after,rfl,hspan,hrest⟩ := h
    rw [byteLength_append, ← Nat.add_assoc]
    cases ts with
    | nil =>
      obtain rfl : after = [] := hrest
      simp [hspan]
    | cons u ts => exact ih hrest

/-- Where a token of a tiling stands. -/
lemma exists_around (h : Tile offset chars ts) :
    ∀ t ∈ ts, ∃ before after, chars = before ++ (t.text.toList ++ after) ∧
      t.span.start = offset + byteLength before ∧
      t.span.stop = offset + byteLength (before ++ t.text.toList) := by
  induction ts generalizing offset chars with
  | nil => simp
  | cons u ts ih =>
    obtain ⟨rest,rfl,hspan,hrest⟩ := h
    intro t ht
    rcases List.mem_cons.mp ht with rfl | ht
    · refine ⟨[],rest,rfl,?_,?_⟩ <;> simp [hspan]
    · obtain ⟨before,after,rfl,hstart,hstop⟩ := ih hrest t ht
      refine ⟨u.text.toList ++ before,after,by simp,?_,?_⟩
      · rw [hstart, byteLength_append, Nat.add_assoc]
      · rw [hstop, List.append_assoc, byteLength_append _ (before ++ _), Nat.add_assoc]

end Tile

end Token

namespace Lexer

open Token

variable {t : Token} {ts : List Token}

/-! Garbage is joined, and what it is joined from begins with it. -/

lemma isChain_joinGarbage (h : ts.IsChain fun t u => ¬ (t.kind = .garbage ∧ u.kind = .garbage)) :
    (joinGarbage t ts).IsChain fun t u => ¬ (t.kind = .garbage ∧ u.kind = .garbage) := by
  fun_cases joinGarbage t ts with
  | case1 => exact .singleton t
  | case2 u us hk =>
    cases us with
    | nil => exact .singleton _
    | cons v us =>
      rw [List.isChain_cons_cons] at h ⊢
      exact ⟨fun hboth => h.1 ⟨hk.2,hboth.2⟩,h.2⟩
  | case3 u us hk => exact .cons_cons hk h

lemma isChain_join (ts : List Token) : (ts.foldr joinGarbage []).IsChain
    fun t u => ¬ (t.kind = .garbage ∧ u.kind = .garbage) := by
  induction ts with
  | nil => exact .nil
  | cons t ts ih => exact isChain_joinGarbage ih

/-- The piece that a token begins with: the whole of it, unless it is garbage. -/
structure Heads (p t : Token) : Prop where
  kind : p.kind = t.kind
  start : p.span.start = t.span.start
  text : p.text.toList <+: t.text.toList
  eq : t.kind ≠ .garbage → p = t

lemma Heads.refl (t : Token) : Heads t t := ⟨rfl,rfl,List.prefix_refl _,fun _ => rfl⟩

lemma mem_joinGarbage {p : Token} : t ∈ joinGarbage p ts → t ∈ ts ∨ Heads p t := by
  fun_cases joinGarbage p ts with
  | case1 =>
    intro ht
    obtain rfl := List.mem_singleton.mp ht
    exact Or.inr (.refl t)
  | case2 u us hk =>
    intro ht
    rcases List.mem_cons.mp ht with rfl | ht
    · exact Or.inr ⟨hk.1,rfl,by simp,fun hne => absurd rfl hne⟩
    · exact Or.inl (List.mem_cons_of_mem _ ht)
  | case3 u us hk =>
    intro ht
    rcases List.mem_cons.mp ht with rfl | ht
    · exact Or.inr (.refl t)
    · exact Or.inl ht

lemma exists_piece {ps : List Token} (ht : t ∈ ps.foldr joinGarbage []) :
    ∃ us p vs, ps = us ++ p :: vs ∧ Heads p t := by
  induction ps with
  | nil => cases ht
  | cons q ps ih =>
    rcases mem_joinGarbage ht with hmem | hheads
    · obtain ⟨us,p,vs,rfl,hp⟩ := ih hmem
      exact ⟨q :: us,p,vs,rfl,hp⟩
    · exact ⟨[],q,ps,rfl,hheads⟩

/-- Every token begins with what is scanned at its start. -/
lemma exists_scan {source : String} (ht : t ∈ lex source) :
    ∃ before c cs, source.toList = before ++ c :: cs ∧ t.span.start = byteLength before ∧
      t.kind = (scan c cs).kind ∧ (c :: cs).take (scan c cs).length <+: t.text.toList ∧
      (t.kind ≠ .garbage → t.text.toList = (c :: cs).take (scan c cs).length) := by
  obtain ⟨us,p,vs,hpieces,hkind,hstart,htext,hp⟩ := exists_piece ht
  obtain ⟨before,after,hsource,hafter⟩ := exists_of_pieces_append hpieces
  cases after with
  | nil => cases hafter
  | cons c cs =>
    rw [pieces] at hafter
    obtain ⟨rfl,-⟩ := List.cons.inj hafter
    refine ⟨before,c,cs,hsource,?_,hkind.symm,by simpa [tokenAt] using htext,fun hne => ?_⟩
    · rw [← hstart]
      simp [tokenAt]
    · rw [← hp hne]
      simp [tokenAt]

lemma text_ne_nil {source : String} (ht : t ∈ lex source) : t.text.toList ≠ [] := by
  obtain ⟨before,c,cs,-,-,-,htext,-⟩ := exists_scan ht
  intro hnil
  rw [hnil, List.prefix_nil, List.take_eq_nil_iff] at htext
  have hpos := scan_length_pos c cs
  rcases htext with hzero | hcons
  · omega
  · cases hcons

lemma byteLength_pos {chars : List Char} (h : chars ≠ []) : 0 < byteLength chars := by
  obtain ⟨c,cs,rfl⟩ := List.exists_cons_of_ne_nil h
  have hpos := c.utf8Size_pos
  rw [byteLength_cons]
  omega

/-- Lexing is a lossless tiling with maximal munch. -/
theorem tiling_lex (source : String) : Tiling source (lex source) := by
  have htile := tile_lex source
  have hslice : ∀ t ∈ lex source, textIn? source t = some t.text.toList := isSlice_lex source
  constructor
  case nonempty =>
    intro t ht
    obtain ⟨before,after,-,hstart,hstop⟩ := htile.exists_around t ht
    have hpos := byteLength_pos (text_ne_nil ht)
    rw [hstart, hstop, byteLength_append]
    omega
  case first => exact htile.start_of_head?
  case adjacent => exact htile.adjacent
  case last =>
    have hsize := utf8ByteSize_ofList source.toList
    rw [String.ofList_toList] at hsize
    rw [hsize]
    simpa using htile.stop_of_getLast?
  case boundaries =>
    intro t ht
    obtain ⟨before,after,hsource,hstart,hstop⟩ := htile.exists_around t ht
    rw [hstart, hstop, Nat.zero_add, Nat.zero_add]
    have hsource' : source.toList = (before ++ t.text.toList) ++ after := by
      rw [hsource, List.append_assoc]
    exact ⟨isValid_byteLength hsource,isValid_byteLength hsource'⟩
  case whole =>
    refine ⟨(lex source).map fun t => t.text.toList,?_,htile.flatten⟩
    rw [List.map_map]
    exact List.map_congr_left hslice
  case joined => exact isChain_join _
  case kind_ne => exact kind_lex_ne source
  case munches =>
    intro t ht hne
    obtain ⟨before,c,cs,hsource,hstart,hkind,-,htext⟩ := exists_scan ht
    refine ⟨before,c :: cs,t.text.toList,?_,hslice t ht,?_⟩
    · rw [hstart, hsource, Text.cut?_append]
    · rw [htext hne, hkind]
      exact munches_scan (hkind ▸ hne) (scan_length_le c cs)
  case unmatched =>
    intro t ht hk
    obtain ⟨before,c,cs,hsource,hstart,hkind,-,-⟩ := exists_scan ht
    refine ⟨before,c :: cs,?_,fun kind word hp => ?_⟩
    · rw [hstart, hsource, Text.cut?_append]
    · exact notMem_rule_of_garbage (hkind ▸ hk) hp

end Lexer
end TreeRules
