import TreeRules.Proofs.Compile.Template
import TreeRules.Proofs.Engine.Bound
import TreeRules.Proofs.Template.Dependence

/-! Builders that need captures. A builder is marked when its template is compiled, by what is read
in it and in the builders below it. The mark is right for every node of a right side, however deep
it stands: it says that there are holes in its template, and that what is built depends on the
captures. -/
namespace TreeRules

namespace Template

/-- Whether a template makes a node of its own. -/
def makesNode : Template → Bool
  | subtree _ _ _ _ => true
  | _ => false

/-- The template inside that is reached by the places of children on the way. -/
def inside? : List Nat → Template → Option Template
  | [], t => some t
  | place :: path, subtree _ _ _ children => children[place]?.bind (inside? path)
  | _ :: _, _ => none

end Template

namespace Builder

/-- A builder's mark is right for the template of its node. It is there exactly if the template has
holes, and missing exactly if the builder makes the same of all captures, with whatever factory. -/
structure RightlyMarked (e : Engine) (t : Template) (b : Builder) : Prop where
  marked : b.needsCaptures = true ↔ t.holes ≠ []
  unmarked : b.needsCaptures = false ↔
    ∀ (f : Factory) (rule : CompiledRule) (m m' : Match), rule.result = .subtree b.id →
      m.fragment = m'.fragment → e.build f rule m = e.build f rule m'

/-- The source that is reached from a source by the places of children on the way. -/
def Source.follow? (table : List Builder) : List Nat → Source → Option Source
  | [], s => some s
  | place :: path, builder id => do
    let b ← table.find? (·.id == id)
    let next ← b.children[place]?
    next.follow? table path
  | _ :: _, _ => none

lemma Source.follow?_cons {table : List Builder} {id : Id} {b : Builder}
    (hb : table.find? (·.id == id) = some b) (place : Nat) (path : List Nat) :
    (builder id).follow? table (place :: path) =
      b.children[place]?.bind (follow? table path) := by
  rw [follow?, hb]
  rfl

/-- A builder is found by its number, however many newer ones are put before it. -/
lemma find?_of_suffix {b : Builder} {older table : List Builder}
    (hn : ByPlace Builder.id table.reverse) (hs : b :: older <:+ table)
    (hid : b.id = older.length) : table.find? (·.id == b.id) = some b := by
  obtain ⟨newer,rfl⟩ := hs
  induction newer with
  | nil => exact List.find?_cons_of_pos (beq_self_eq_true _)
  | cons newest newer ih =>
    have hne : newest.id ≠ b.id := hn.id_ne (by rw [hid]; exact Nat.lt_succ_self _)
    rw [List.cons_append, List.find?_cons_of_neg (by simpa using hne)]
    exact ih (byPlace_reverse_cons.mp hn).1

end Builder

namespace Compilation

variable {s t later : Compilation} {u : SymbolTable} {table : List Builder}

/-! Marks. -/

lemma readsHole_iff (span : Span) (d : Option Datum) :
    readsHole d = true ↔ Template.dataHoles span d ≠ [] := by
  rcases d with _ | (hole | text) <;> simp [readsHole, Template.dataHoles]

mutual

/-- Whatever the session, a hole is read exactly if one stands in the template. -/
lemma needsCaptures_compileTemplate : ∀ (r : Template) (s : Compilation),
    (compileTemplate r s).1.needsCaptures = true ↔ r.holes ≠ []
  | .null _, s => by simp [compileTemplate, Template.holes]
  | .hole _ _, s => by simp [compileTemplate, Template.holes]
  | .subtree span type data children, s => by
    rw [compileTemplate, Template.holes, Bool.or_eq_true, readsHole_iff span,
      needsCaptures_compileTemplates children s, ← not_and_or, ne_eq, List.append_eq_nil_iff]

lemma needsCaptures_compileTemplates : ∀ (rs : List Template) (s : Compilation),
    (compileTemplates rs s).1.needsCaptures = true ↔ Template.listHoles rs ≠ []
  | [], s => by simp [compileTemplates, Template.listHoles]
  | r :: rs, s => by
    rw [compileTemplates, Template.listHoles, Bool.or_eq_true, needsCaptures_compileTemplate r s,
      needsCaptures_compileTemplates rs, ← not_and_or, ne_eq, List.append_eq_nil_iff]

end

/-- The builder of a node is in the table, over the sources of the templates inside. The mark that
those who refer to it are told of is the one in the table. -/
lemma exists_builder {span : Span} {type : String} {data : Option Datum} {children : List Template}
    (ht : (compileTemplate (.subtree span type data children) s).2.BuildersIn u table) :
    let made := compileTemplate (.subtree span type data children) s
    ∃ b, made.1.source = .builder b.id ∧ table.find? (·.id == b.id) = some b ∧
      b.children = (compileTemplates children s).1.source ∧
      b.needsCaptures = made.1.needsCaptures :=
  ⟨_,rfl,Builder.find?_of_suffix ht.ids ht.builders rfl,rfl,rfl⟩

/-! Marks that are read back. A node may be marked by what the table says of the builders that its
children came to, instead of by what the children hand up. -/

/-- The mark of a source, read off the builders that were added. -/
def mark? (s : Compilation) : Builder.Source → Option Bool
  | .null => some false
  | .hole _ => some true
  | .builder id => (s.builder? id).map Builder.needsCaptures

mutual

/-- Compiles a template with marks that are read back. If a builder is missing there is no
result. -/
def readBack? : Template → Compilation → Option (Builder.Source × Compilation)
  | .null _, s => some (.null,s)
  | .hole _ h, s => some (.hole h,s)
  | .subtree _ type data children, s => do
    let below ← listReadBack? children (readsHole data) s
    let symbol := below.2.intern type
    let b := symbol.2.insertBuilder symbol.1 data below.1.source below.1.needsCaptures
    return (.builder b.1,b.2)

/-- Compiles the templates of children; `needs` tells whether a hole is read before them. -/
def listReadBack? : List Template → (needs : Bool) → Compilation →
    Option (Supply (List Builder.Source) × Compilation)
  | [], needs, s => some (⟨[],needs⟩,s)
  | t :: rest, needs, s => do
    let first ← readBack? t s
    let mark ← first.2.mark? first.1
    let others ← listReadBack? rest (needs || mark) first.2
    return (⟨first.1 :: others.1.source,others.1.needsCaptures⟩,others.2)

end

/-- The builder of a template is the newest one, and its mark is the one that is handed up. -/
lemma mark?_compileTemplate (r : Template) (s : Compilation) :
    (compileTemplate r s).2.mark? (compileTemplate r s).1.source =
      some (compileTemplate r s).1.needsCaptures := by
  cases r with
  | null | hole => rfl
  | subtree span type data children =>
    have hfind : (compileTemplate (.subtree span type data children) s).2.builder?
        (compileTemplates children s).2.builders.length = some _ :=
      List.find?_cons_of_pos (beq_self_eq_true _)
    exact congrArg (Option.map Builder.needsCaptures) hfind

mutual

/-- Marks that are read back are the marks that are handed up. -/
theorem readBack?_eq : ∀ (r : Template) (s : Compilation),
    readBack? r s = some ((compileTemplate r s).1.source,(compileTemplate r s).2)
  | .null _, s => rfl
  | .hole _ _, s => rfl
  | .subtree span type data children, s => by
    rw [readBack?, listReadBack?_eq children (readsHole data) s]
    rfl

lemma listReadBack?_eq : ∀ (rs : List Template) (needs : Bool) (s : Compilation),
    listReadBack? rs needs s = some (⟨(compileTemplates rs s).1.source,
      needs || (compileTemplates rs s).1.needsCaptures⟩,(compileTemplates rs s).2)
  | [], needs, s => by simp [listReadBack?, compileTemplates]
  | r :: rs, needs, s => by
    rw [listReadBack?, readBack?_eq r s]
    simp only [Option.bind_eq_bind, Option.bind_some, mark?_compileTemplate, listReadBack?_eq rs]
    simp [compileTemplates, Bool.or_assoc]

end

/-! Templates inside a template. -/

/-- Each of several templates is compiled in a session of its own on the way, and the source that it
comes to stands at its place. -/
lemma exists_session_of_getElem? {rs : List Template} {place : Nat} {r : Template} (hs : s.Closed)
    (ht : (compileTemplates rs s).2.BuildersIn u table) (hr : rs[place]? = some r) :
    ∃ mid : Compilation, mid.Closed ∧ (compileTemplate r mid).2.BuildersIn u table ∧
      (compileTemplates rs s).1.source[place]? = some (compileTemplate r mid).1.source := by
  induction rs generalizing s place with
  | nil => cases hr
  | cons first rs ih =>
    obtain ⟨hfirst,-,-⟩ := compileTemplate_closes first s hs
    obtain ⟨-,hkeep,-⟩ := compileTemplates_closes rs _ hfirst
    cases place with
    | zero =>
      cases hr
      exact ⟨s,hs,hkeep.buildersIn ht,rfl⟩
    | succ place => exact ih hfirst ht hr

/-- A template inside is compiled in a session of its own, and the source that it comes to is
reached by the places on the way to it. -/
lemma exists_session_of_inside? {path : List Nat} {r part : Template} (hs : s.Closed)
    (ht : (compileTemplate r s).2.BuildersIn u table) (hr : r.inside? path = some part) :
    ∃ mid : Compilation, mid.Closed ∧ (compileTemplate part mid).2.BuildersIn u table ∧
      (compileTemplate r s).1.source.follow? table path =
        some (compileTemplate part mid).1.source := by
  induction path generalizing r s with
  | nil =>
    cases hr
    exact ⟨s,hs,ht,rfl⟩
  | cons place path ih =>
    -- one step down: the rest of the way starts in the session where the child was compiled
    cases r with
    | hole | null => cases hr
    | subtree span type data children =>
      obtain ⟨child,hchild,hpart⟩ := Option.bind_eq_some_iff.mp hr
      have hbelow := (keepsTo_compileTemplate_subtree span type data children s).buildersIn ht
      obtain ⟨mid,hmid,hin,hsource⟩ := exists_session_of_getElem? hs hbelow hchild
      obtain ⟨last,hlast,hin',hfollow⟩ := ih hmid hin hpart
      obtain ⟨b,hb,hfind,hchildren,-⟩ := exists_builder ht
      refine ⟨last,hlast,hin',?_⟩
      rw [hb, Builder.Source.follow?_cons hfind, hchildren, hsource, Option.bind_some, hfollow]

/-- A right side that is compiled in a session: what it comes to, and the session afterwards. -/
inductive CompiledIn (s : Compilation) : Template → RightSide → Compilation → Prop
  /-- By itself. -/
  | alone (r : Template) : CompiledIn s r (s.compileResult r).1 (s.compileResult r).2
  /-- With the left side of its rule. -/
  | rule {r : Rule} {t : Compilation} {c : CompiledRule} (hc : s.compileRule r = .ok t)
      (hrules : t.rules = s.rules ++ [c]) : CompiledIn s r.result c.result t

lemma CompiledIn.exists_session {r : Template} {side : RightSide} (h : s.CompiledIn r side t)
    (hs : s.Closed) : ∃ mid : Compilation, mid.Closed ∧ side = (mid.compileResult r).1 ∧
      (mid.compileResult r).2.KeepsTo t ∧ t.Closed := by
  cases h with
  | alone r =>
    obtain ⟨hclosed,-,-⟩ := compileResult_closes r hs
    exact ⟨s,hs,rfl,.refl _,hclosed⟩
  | @rule r t c hc hrules =>
    obtain ⟨hclosed,-⟩ := compileRule_closes hc hs
    obtain ⟨mid,hstrategy,hresult,rfl⟩ := compiled_of_compileRule hc hrules
    obtain ⟨hmid,-⟩ := compileStrategy_closes hstrategy hs
    exact ⟨mid,hmid,hresult,keepsTo_insertRule _ c,hclosed⟩

/-- A node of a right side is built as its template says, wherever it stands. -/
lemma build_of_session {part : Template} (hs : s.Closed)
    (ht : (compileTemplate part s).2.BuildersIn u later.builders) {b : Builder}
    (hb : (compileTemplate part s).1.source = .builder b.id) {rule : CompiledRule}
    (hr : rule.result = .subtree b.id) (f : Factory) (m : Match) :
    Engine.build ⟨u,later.finish⟩ f rule m = part.replacement? f m.captures m.fragment := by
  have hside : rule.result = (s.compileResult part).1 := by
    rw [hr, compileResult, hb]
    rfl
  rw [Engine.build, hside]
  exact build_compileResult_of_buildersIn part hs ht m.fragment

/-- The builder that a node comes to is rightly marked. -/
lemma exists_marked {part : Template} (hnode : part.makesNode = true) (hs : s.Closed)
    (ht : (compileTemplate part s).2.BuildersIn u later.builders) :
    ∃ b, (compileTemplate part s).1.source = .builder b.id ∧ later.builder? b.id = some b ∧
      b.RightlyMarked ⟨u,later.finish⟩ part := by
  cases part with
  | hole | null => cases hnode
  | subtree span type data children =>
    obtain ⟨b,hb,hfind,-,hmark⟩ := exists_builder ht
    have hholes := needsCaptures_compileTemplate (.subtree span type data children) s
    rw [← hmark] at hholes
    refine ⟨b,hb,hfind,hholes,?_⟩
    rw [← Bool.not_eq_true, hholes, not_not, Template.holes_eq_nil_iff]
    constructor
    · intro hsame f rule m m' hrule hfragment
      rw [build_of_session hs ht hb hrule, build_of_session hs ht hb hrule, hfragment]
      exact hsame f m.captures m'.captures m'.fragment
    · intro hsame f c c' fragment
      -- any rule with this right side shows what the builder makes
      have hbuild := hsame f ⟨0,"",.none,.select [],.subtree b.id,0,true⟩ ⟨0,c,fragment⟩
        ⟨0,c',fragment⟩ rfl rfl
      rwa [build_of_session hs ht hb rfl, build_of_session hs ht hb rfl] at hbuild

/-- Every node of a right side has its builder, which is reached by the places on the way to the
node, and which is rightly marked, whatever is compiled before and afterwards. -/
theorem rightlyMarked_of_compiledIn (language : String) (h : Option Hierarchy) (config : Config)
    (symbols : SymbolTable) (calls more : List Call) {r : Template} (hr : r.makesNode = true)
    {s : Compilation} (hs : s = (start language h config symbols).afterAll calls)
    {side : RightSide} {made : Compilation} (hm : s.CompiledIn r side made) {later : Compilation}
    (hl : later = made.afterAll more) {u : SymbolTable} (hu : later.symbols.names <+: u.names) :
    ∃ root, side = .subtree root ∧
      ∀ path part, r.inside? path = some part → part.makesNode = true →
        ∃ b, (Builder.Source.builder root).follow? later.builders path = some (.builder b.id) ∧
          later.builder? b.id = some b ∧ b.RightlyMarked ⟨u,later.finish⟩ part := by
  subst hs hl
  obtain ⟨hclosed,-⟩ := afterAll_closes (closed_start language h config symbols) calls
  obtain ⟨mid,hmid,rfl,hkeep,hmade⟩ := hm.exists_session hclosed
  obtain ⟨hlater,hkeep'⟩ := afterAll_closes hmade more
  have hin : (compileTemplate r mid).2.BuildersIn u (made.afterAll more).builders :=
    (hkeep.trans hkeep').buildersIn ⟨hu,hlater.builderIds,List.suffix_refl _⟩
  obtain ⟨root,hroot,-⟩ := exists_marked hr hmid hin
  have hside : (mid.compileResult r).1 = .subtree root.id := by
    rw [compileResult, hroot]
    rfl
  refine ⟨root.id,hside,fun path part hpart hnode => ?_⟩
  obtain ⟨last,hlast,hin',hfollow⟩ := exists_session_of_inside? hmid hin hpart
  obtain ⟨b,hb,hfound,hmark⟩ := exists_marked hnode hlast hin'
  exact ⟨b,by rw [← hroot, hfollow, hb],hfound,hmark⟩

namespace Sample

/-- The rule `A#1 -> Outer(Inner<"x">, Wrap(#1), null);`. -/
def wrapping : Rule :=
  ⟨[.typedHole (.plain .none) "A" ⟨1⟩ false],
    .subtree .none "Outer" none [.subtree .none "Inner" (some (.literal "x")) [],
      .subtree .none "Wrap" none [.hole .none ⟨1⟩],.null .none],.none⟩

/-- It is compiled after one rule and before another. -/
def wrapped : Compilation := (before.after (.rule wrapping)).afterAll [.rule (ruleOf 2)]

end Sample

open Sample in
/-- `Wrap` and `Outer` are marked, `Inner` is not and makes the same of all captures. -/
theorem inner_needs_no_captures :
    wrapped.finish.builderList.map Builder.needsCaptures = [false,false,true,true,false] ∧
      ∀ (f : Factory) (rule : CompiledRule) (m m' : Match), rule.result = .subtree 1 →
        m.fragment = m'.fragment → Engine.build ⟨wrapped.symbols,wrapped.finish⟩ f rule m =
          Engine.build ⟨wrapped.symbols,wrapped.finish⟩ f rule m' := by
  obtain ⟨root,hroot,hmarks⟩ := rightlyMarked_of_compiledIn "default" none .default .empty
    [.rule (ruleOf 1)] [.rule (ruleOf 2)] (r := wrapping.result) rfl rfl
    (.rule (t := before.after (.rule wrapping)) rfl rfl) (rfl : wrapped = _)
    (List.prefix_refl _)
  cases hroot
  obtain ⟨b,hb,-,hmark⟩ := hmarks [0] _ rfl rfl
  have hid : b.id = 1 := (Builder.Source.builder.inj (Option.some.inj hb)).symm
  have hunmarked : b.needsCaptures = false := Bool.eq_false_iff.mpr fun h => hmark.marked.mp h rfl
  exact ⟨rfl,hid ▸ hmark.unmarked.mp hunmarked⟩

end Compilation
end TreeRules
