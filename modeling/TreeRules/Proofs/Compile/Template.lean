import TreeRules.Proofs.Compile.Tables
import TreeRules.Proofs.Template.Meaning

/-! Builders make what their templates mean. A builder runs on the builders below it, so what it
makes is settled when it is added. -/
namespace TreeRules

open Builder (Source)

lemma SymbolTable.name?_of_isPrefix {t u : SymbolTable} (h : t.names <+: u.names) {x : Symbol}
    {name : String} (hx : t.name? x = some name) : u.name? x = some name := by
  obtain ⟨hlt,hname⟩ := List.getElem?_eq_some_iff.mp hx
  exact List.getElem?_eq_some_iff.mpr
    ⟨Nat.lt_of_lt_of_le hlt h.length_le,(h.getElem hlt).symm.trans hname⟩

namespace Builder

variable {f : Factory} {c : Captures}

lemma dataOf_eq_value? (d : Option Datum) : dataOf c d = Datum.value? c d := by
  rcases d with _ | _ | _ <;> rfl

/-- Drafting, filling and finishing a node comes to what the factory allows as a whole. -/
lemma draft_fill_finish (f : Factory) (type : String) (data : Option String)
    (children : List Tree) (fragment : Option Fragment) :
    ((f.draft? type).bind fun d => (fill d data).bind (finish · children fragment)) =
      f.node? type data children fragment := by
  unfold Factory.draft? Factory.node?
  cases f.rejected.contains type with
  | true => rfl
  | false =>
    cases data with
    | none => cases fragment <;> rfl
    | some text =>
      cases ha : f.allowsData type text with
      | false => simp [fill, Draft.setData?, Tree.type, ha]
      | true => cases fragment <;> simp [fill, Draft.setData?, Tree.type, ha] <;> rfl

/-- What a builder makes of the nodes that its sources give. -/
lemma make_eq {u : SymbolTable} {refers : Id → Option Tree} {b : Builder} {type : String}
    (ht : u.name? b.type = some type) (fragment : Option Fragment) :
    b.make u f c refers fragment = (sourceNodes? c refers b.children).bind
      (f.node? type (Datum.value? c b.data) · fragment) := by
  rw [make, ht, dataOf_eq_value?]
  simp only [← draft_fill_finish, Option.bind_eq_bind, Option.bind_some]
  cases f.draft? type with
  | none => cases sourceNodes? c refers b.children <;> rfl
  | some d =>
    simp only [Option.bind_some]
    cases fill d (Datum.value? c b.data) with
    | none => cases sourceNodes? c refers b.children <;> rfl
    | some d => rfl

end Builder

namespace Compilation

variable {s t : Compilation} {f : Factory} {c : Captures} {u : SymbolTable}
  {table : List Builder}

/-- A later time: the symbols and builders of a session are there, under their numbers. -/
structure BuildersIn (s : Compilation) (u : SymbolTable) (table : List Builder) : Prop where
  symbols : s.symbols.names <+: u.names
  ids : ByPlace Builder.id table.reverse
  builders : s.builders <:+ table

lemma KeepsTo.buildersIn (h : s.KeepsTo t) (ht : t.BuildersIn u table) : s.BuildersIn u table :=
  ⟨h.symbols.trans ht.symbols,ht.ids,h.suffix_builders.trans ht.builders⟩

/-- A node is newer than what is inside it. -/
lemma keepsTo_compileTemplate_subtree (span : Span) (type : String) (data : Option Datum)
    (children : List Template) (s : Compilation) :
    (compileTemplates children s).2.KeepsTo
      (compileTemplate (.subtree span type data children) s).2 :=
  (KeepsTo.withSymbols _ (SymbolTable.names_isPrefix_intern _ type)).trans
    (keepsTo_insertBuilder _ _ _ _ _)

/-- The builder of a node makes the node, once the sources inside give what their templates mean. -/
lemma build_compileTemplate_subtree {span : Span} {type : String} {data : Option Datum}
    {children : List Template}
    (hs : s.Closed)
    (hinside : ∀ table, (compileTemplates children s).2.BuildersIn u table →
      Builder.sourceNodes? c (Builder.build u f c table · none)
        (compileTemplates children s).1.source = Template.contributions? f c children)
    (ht : (compileTemplate (.subtree span type data children) s).2.BuildersIn u table)
    (fragment : Option Fragment) :
    Builder.build u f c table (compileTemplates children s).2.builders.length fragment =
      (Template.contributions? f c children).bind
        (f.node? type (Datum.value? c data) · fragment) := by
  have hname := SymbolTable.name?_of_isPrefix ht.symbols
    ((compileTemplates children s).2.symbols.name?_intern type)
  have hid : (compileTemplates children s).2.builders.length <
      (compileTemplate (.subtree span type data children) s).2.builders.length :=
    Nat.lt_succ_self _
  obtain ⟨hbelow,-,-⟩ := compileTemplates_closes children s hs
  have hu := (keepsTo_compileTemplate_subtree span type data children s).symbols.trans ht.symbols
  rw [Builder.build_of_suffix ht.ids ht.builders hid]
  change Builder.build u f c (_ :: (compileTemplates children s).2.builders) _ fragment = _
  rw [Builder.build]
  refine (if_pos rfl).trans ((Builder.make_eq hname fragment).trans ?_)
  exact congrArg (Option.bind · _) (hinside _ ⟨hu,hbelow.builderIds,List.suffix_refl _⟩)

mutual

/-- A source gives what its template adds, at any later time. -/
lemma nodes?_compileTemplate : ∀ (r : Template) (s : Compilation) (table : List Builder),
    s.Closed → (compileTemplate r s).2.BuildersIn u table →
      (compileTemplate r s).1.source.nodes? c (Builder.build u f c table · none) =
        r.contribution? f c
  | .null _, s, table, hs, ht => rfl
  | .hole _ h, s, table, hs, ht => by
    rw [compileTemplate, Builder.Source.nodes?, Template.contribution?]
    rcases c.get? h with _ | _ | _ | _ <;> rfl
  | .subtree span type data children, s, table, hs, ht => by
    have hb := build_compileTemplate_subtree hs
      (fun table ht => sourceNodes?_compileTemplates children s table hs ht) ht none
    change (Builder.build u f c table (compileTemplates children s).2.builders.length none).map
      ([·]) = _
    rw [hb, Template.contribution?, Option.map_bind]
    simp only [Function.comp_def, Option.map_eq_bind]
    rfl

lemma sourceNodes?_compileTemplates : ∀ (rs : List Template) (s : Compilation)
    (table : List Builder), s.Closed → (compileTemplates rs s).2.BuildersIn u table →
      Builder.sourceNodes? c (Builder.build u f c table · none) (compileTemplates rs s).1.source =
        Template.contributions? f c rs
  | [], s, table, hs, ht => rfl
  | r :: rs, s, table, hs, ht => by
    obtain ⟨hfirst,-,-⟩ := compileTemplate_closes r s hs
    obtain ⟨-,hkeep,-⟩ := compileTemplates_closes rs _ hfirst
    have h := nodes?_compileTemplate r s table hs (hkeep.buildersIn ht)
    have h' := sourceNodes?_compileTemplates rs _ table hfirst ht
    rw [compileTemplates, Builder.sourceNodes?, h, h', Template.contributions?]

end

lemma build_compileResult_of_buildersIn (r : Template) (hs : s.Closed)
    (ht : (s.compileResult r).2.BuildersIn u table) (fragment : Option Fragment) :
    (s.compileResult r).1.build u table f c fragment = r.replacement? f c fragment := by
  cases r with
  | null span => rfl
  | hole span h => rfl
  | subtree span type data children =>
    change (compileTemplate (.subtree span type data children) s).2.BuildersIn u table at ht
    have hb : Builder.build u f c table (compileTemplates children s).2.builders.length fragment =
        (Template.contributions? f c children).bind
          (f.node? type (Datum.value? c data) · fragment) :=
      build_compileTemplate_subtree hs
        (fun table ht => sourceNodes?_compileTemplates children s table hs ht) ht fragment
    change (Builder.build u f c table (compileTemplates children s).2.builders.length fragment).map
      Replacement.node = _
    rw [hb, Template.replacement?, Option.map_bind]
    simp only [Function.comp_def, Option.map_eq_bind]
    rfl

/-- A right side makes what its template means: in whatever session it is compiled, and whatever is
compiled after it. -/
theorem build_compileResult (language : String) (h : Option Hierarchy) (config : Config)
    (symbols : SymbolTable) (calls more : List Call) (r : Template)
    {s : Compilation} (hs : s = (start language h config symbols).afterAll calls)
    {later : Compilation} (hl : later = (s.compileResult r).2.afterAll more) {u : SymbolTable}
    (hu : later.symbols.names <+: u.names) {rule : CompiledRule}
    (hr : rule.result = (s.compileResult r).1) (f : Factory) (m : Match) :
    Engine.build ⟨u,later.finish⟩ f rule m = r.replacement? f m.captures m.fragment := by
  subst hs hl
  obtain ⟨hclosed,-⟩ := afterAll_closes (closed_start language h config symbols) calls
  obtain ⟨hmade,-,-⟩ := compileResult_closes r hclosed
  obtain ⟨hlater,hkeep⟩ := afterAll_closes hmade more
  rw [Engine.build, hr]
  exact build_compileResult_of_buildersIn r hclosed
    (hkeep.buildersIn ⟨hu,hlater.builderIds,List.suffix_refl _⟩) m.fragment

namespace Sample

def leaf (type : String) : Tree := .node type none [] none

/-- The template `X<#1>(#2, null, Y(#3))`. -/
def template : Template :=
  .subtree .none "X" (some (.hole ⟨1⟩))
    [.hole .none ⟨2⟩,.null .none,.subtree .none "Y" none [.hole .none ⟨3⟩]]

/-- Data for `#1`, two nodes for `#2`, nothing for `#3`. -/
def captured : Match :=
  ⟨3,⟨[(⟨1⟩,.data "x"),(⟨2⟩,.nodes [leaf "A",leaf "B"])]⟩,some ⟨4,9⟩⟩

/-- The session has a rule already, and another is compiled afterwards. -/
def before : Compilation := (start "default" none .default .empty).afterAll [.rule (ruleOf 1)]

def later : Compilation := (before.compileResult template).2.afterAll [.rule (ruleOf 2)]

def compiled : CompiledRule :=
  ⟨1,"A -> X<#1>(#2, null, Y(#3));",.none,.select [],(before.compileResult template).1,0,true⟩

end Sample

open Sample in
theorem build_template :
    Engine.build ⟨later.symbols,later.finish⟩ .free compiled captured =
      some (.node (.node "X" (some "x") [leaf "A",leaf "B",leaf "Y"] (some ⟨4,9⟩))) := by
  have hbuild : Engine.build ⟨later.symbols,later.finish⟩ .free compiled captured =
      template.replacement? .free captured.captures captured.fragment :=
    build_compileResult "default" none .default .empty [.rule (ruleOf 1)] [.rule (ruleOf 2)]
      template rfl rfl (List.prefix_refl _) rfl .free captured
  rw [hbuild]
  rfl

end Compilation
end TreeRules
