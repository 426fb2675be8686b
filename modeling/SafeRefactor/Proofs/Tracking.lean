import Mathlib.Data.List.TakeWhile
import SafeRefactor.Flow.RegionFlow
import SafeRefactor.Proofs.Execution
import SafeRefactor.Proofs.Resolution

/-!
# Followed symbols are not bound in expressions

Without assignment expressions the only names that an expression binds are the targets
of its comprehensions.  They belong to the scope of the comprehension, which declares no
name global or nonlocal.  The symbols that are followed from a statement live in the
functions around it, so none of them is bound or deleted inside an expression.
-/

namespace SafeRefactor

/-- Whether constructs of the sort are expressions or stand between expressions. -/
def Slot.isValue : Slot → Bool
  | .expression | .keyword | .parameterList | .parameter => true
  | _ => false

theorem Form.slot_of_value {form : Form} {outer slot : Slot} {role : Role}
    (isValue : outer.isValue = true) (admitted : outer.admits form = true)
    (plain : form ≠ .namedExpr) (listed : (role, slot) ∈ form.slots) :
    slot.isValue = true ∨
      (slot = .clause ∧ role = .clause ∧ ∃ kind, form = .comprehension kind) := by
  have all : ∀ entry ∈ form.slots, entry.2.isValue = true ∨
      (entry = (.clause, .clause) ∧ ∃ kind, form = .comprehension kind) := by
    cases form with
    | namedExpr => exact absurd rfl plain
    | comprehension kind => simp [Form.slots, Slot.isValue]
    | starred context | list context | tuple context =>
        cases context with
        | load => simp [Form.slots, Context.slot, Slot.isValue]
        | _ => cases outer <;> first | cases isValue; done | cases admitted
    | _ =>
        first
          | simp [Form.slots, Slot.isValue]; done
          | cases outer <;> first | cases isValue; done | cases admitted
  rcases all _ listed with value | ⟨same, kind⟩
  · exact Or.inl value
  · obtain ⟨rfl, rfl⟩ := Prod.mk.inj same
    exact Or.inr ⟨rfl, rfl, kind⟩

theorem Form.slot_of_clause {form : Form} {outer slot : Slot} {role : Role}
    (isClause : outer = .clause ∨ outer = .target) (admitted : outer.admits form = true)
    (listed : (role, slot) ∈ form.slots) :
    slot = .expression ∨ (slot = .target ∧ ∀ spot : Spot, ∀ parent : Node, ∀ child : NodeId,
      parent.form = form → (spot.step parent role child).place.scope = spot.place.scope) := by
  have same {parent : Node} (spot : Spot) (child : NodeId) (form : parent.form = form)
      (ordinary : spot.step parent role child = .of (spot.place.inside parent)) :
      (spot.step parent role child).place.scope = spot.place.scope := by
    rw [ordinary]
    rfl
  cases form with
  | clause isAsync =>
      simp only [Form.slots, List.mem_cons, Prod.mk.injEq, List.not_mem_nil, or_false] at listed
      rcases listed with ⟨rfl, rfl⟩ | ⟨_, rfl⟩ | ⟨_, rfl⟩
      · refine Or.inr ⟨rfl, fun spot parent child form => same spot child form ?_⟩
        simp [Spot.step, form]
      · exact Or.inl rfl
      · exact Or.inl rfl
  | starred context | list context | tuple context =>
      cases context with
      | store =>
          simp only [Form.slots, Context.slot, List.mem_singleton, Prod.mk.injEq] at listed
          refine Or.inr ⟨listed.2, fun spot parent child form => same spot child form ?_⟩
          simp [Spot.step, form]
      | _ => rcases isClause with rfl | rfl <;> cases admitted
  | subscript context =>
      simp only [Form.slots, List.mem_cons, Prod.mk.injEq, List.not_mem_nil, or_false] at listed
      rcases listed with ⟨_, rfl⟩ | ⟨_, rfl⟩
      · exact Or.inl rfl
      · exact Or.inl rfl
  | _ => rcases isClause with rfl | rfl <;> simp_all [Form.slots, Slot.admits]

namespace Spot

/-- What is known of the nodes inside an expression without assignment expressions. -/
inductive InExpression (tree : Node) (spot : Spot) (node : Node) : Prop where
  | value {slot : Slot} : slot.isValue = true → node.fits slot = true → InExpression tree spot node
  | ofClause {slot : Slot} {opener : Node} {kind : ComprehensionKind} :
      slot = .clause ∨ slot = .target → node.fits slot = true →
      opener ∈ tree.nodes → opener.form = .comprehension kind → spot.place.scope = opener.id →
      InExpression tree spot node

theorem Visited.inExpression {tree root node : Node} {spot inner : Spot}
    (visited : Visited tree spot root) (expression : root.fits .expression = true)
    (plain : ∀ lower ∈ root.nodes, lower.form ≠ .namedExpr)
    (reached : spot.Reaches root inner node) : InExpression tree inner node := by
  have start : InExpression tree spot root := .value rfl expression
  apply reached.invariant start
  intro inner parent child further isChild within
  have inside : parent ∈ tree.nodes := Node.nodes_trans further.mem visited.mem
  cases within with
  | value isValue fitting =>
      obtain ⟨slot, listed, fits⟩ := Node.slot_of_child fitting isChild
      rcases Form.slot_of_value isValue (Node.admits_of_fits fitting) (plain parent further.mem)
        listed with value | ⟨rfl, role, kind, form⟩
      · exact .value value fits
      · refine .ofClause (Or.inl rfl) fits inside form ?_
        unfold toChild step
        rw [form, role]
        simp only
        split <;> rfl
  | ofClause isClause fitting member form scope =>
      obtain ⟨slot, listed, fits⟩ := Node.slot_of_child fitting isChild
      rcases Form.slot_of_clause isClause (Node.admits_of_fits fitting) listed with
        rfl | ⟨rfl, same⟩
      · exact .value rfl fits
      · exact .ofClause (Or.inr rfl) fits member form
          ((same inner parent child.id rfl).trans scope)

/-- A name that is bound or deleted inside an expression belongs to a comprehension. -/
theorem Visited.name_in_comprehension {tree root node : Node} {spot inner : Spot} {id : String}
    {context : Context} (visited : Visited tree spot root)
    (expression : root.fits .expression = true)
    (plain : ∀ lower ∈ root.nodes, lower.form ≠ .namedExpr)
    (reached : spot.Reaches root inner node) (form : node.form = .name id context)
    (bound : context ≠ .load) :
    ∃ opener ∈ tree.nodes, ∃ kind, opener.form = .comprehension kind ∧
      inner.place.scope = opener.id := by
  cases visited.inExpression expression plain reached with
  | @value slot isValue fitting =>
      have admitted := Node.admits_of_fits fitting
      rw [form] at admitted
      cases slot <;> cases context <;>
        first | exact absurd rfl bound | cases isValue; done | cases admitted
  | @ofClause _ opener kind _ _ member isComprehension scope =>
      exact ⟨opener, member, kind, isComprehension, scope⟩

/-- Only a function, a class or the module declares names global or nonlocal. -/
theorem Visited.declares_in_body {tree node opener : Node} {spot : Spot}
    (wellFormed : tree.WellFormed) (visited : Visited tree spot node)
    (block : node.form.isBlock = true) (member : opener ∈ tree.nodes)
    (scope : spot.place.scope = opener.id) : opener.form.holdsBody = true := by
  obtain ⟨openers, within, holds⟩ := visited.block_within wellFormed block
  cases openers with
  | nil => cases within.nested
  | cons first rest =>
      have key : first.id = opener.id := (List.cons.inj within.chain).1.symm.trans scope
      have inside := within.nested.visited List.mem_cons_self
      rw [← wellFormed.distinct.eq_of_id inside member key]
      exact holds first List.mem_cons_self

end Spot

theorem SymbolSet.mem_ofList {symbol : Symbol} {symbols : List Symbol} :
    symbol ∈ SymbolSet.ofList symbols ↔ symbol ∈ symbols := by
  have union : SymbolSet.ofList symbols = SymbolSet.union [] symbols := rfl
  rw [union, SymbolSet.mem_union]
  simp

namespace Model

section

variable {path : String} {tree : Node} {model : Model} (settles : model.Settles path tree)
  (wellFormed : tree.WellFormed)

include wellFormed

private theorem comprehension_declares_nothing {opener : Node} {kind : ComprehensionKind}
    {scope : Scope}
    (member : opener ∈ tree.nodes) (form : opener.form = .comprehension kind)
    (isScope : scope ∈ recordedScopes path tree) (key : scope.key = opener.id) (name : String) :
    name ∉ scope.globals ∧ name ∉ scope.nonlocals := by
  have records := (recorded path tree).records scope isScope
  have absurdity {spot : Spot} {node : Node} (visited : Spot.Visited tree spot node)
      (block : node.form.isBlock = true) (place : scope.key = spot.place.scope) : False := by
    have holds := visited.declares_in_body wellFormed block member (place.symm.trans key)
    rw [form] at holds
    cases holds
  constructor
  · intro declared
    obtain ⟨names, told, _⟩ := (records.globals name).mp declared
    obtain ⟨spot, node, visited, owned⟩ := (Event.mem_ofModule_iff_owned wellFormed).mp told
    generalize same : Event.declaresGlobal scope.key names = event at owned
    cases owned with
    | declaredGlobal names shape =>
        exact absurdity visited (by rw [shape]; rfl) (Event.declaresGlobal.inj same).1
    | _ => cases same
  · intro declared
    obtain ⟨names, told, _⟩ := (records.nonlocals name).mp declared
    obtain ⟨spot, node, visited, owned⟩ := (Event.mem_ofModule_iff_owned wellFormed).mp told
    generalize same : Event.declaresNonlocal scope.key names = event at owned
    cases owned with
    | declaredNonlocal names shape =>
        exact absurdity visited (by rw [shape]; rfl) (Event.declaresNonlocal.inj same).1
    | _ => cases same

include settles

theorem resolve_in_comprehension {node opener : Node} {spot : Spot} {kind : ComprehensionKind}
    {id : String} {context : Context} {symbol : Symbol} (visited : Spot.Visited tree spot node)
    (named : node.form = .name id context) (bound : context ≠ .load) (member : opener ∈ tree.nodes)
    (form : opener.form = .comprehension kind) (place : spot.place.scope = opener.id)
    (resolved : model.resolve node = some symbol) :
    ∃ scope ∈ model.scopes, scope.key = opener.id ∧ symbol.scopeId = scope.id := by
  have other : ∀ name hint, node.form ≠ .parameter name hint := by
    intro name hint
    rw [named]
    exact nofun
  obtain ⟨scope, isScope, received, isSettled, key⟩ :=
    scopeOf_visited settles wellFormed visited other
  obtain ⟨notGlobal, notNonlocal⟩ :=
    comprehension_declares_nothing wellFormed member form isScope (key.trans place) id
  have binds : .binds scope.key id ⟨node, spot.place.parent⟩ ∈ Event.ofModule tree := by
    refine (Event.binds_iff wellFormed).mpr (Or.inl ⟨spot, visited, ?_, key, rfl⟩)
    rw [named]
    cases context with
    | load => exact absurd rfl bound
    | store => rfl
    | del => rfl
  have records := (recorded path tree).records scope isScope
  have contains : scope.bindings.contains id = true :=
    (Scope.contains_iff records id).mpr ⟨_, (records.bindings id _).mpr binds⟩
  have present := (symbol_iff isScope received).mpr
    ⟨scope, isScope, contains, ownerOf?_self (Or.inr notGlobal) notNonlocal⟩
  obtain ⟨own, found⟩ := Option.isSome_iff_exists.mp present
  have looked : model.lookup (model.scopeOf node) id = some own := by
    unfold lookup
    rw [received.globals, received.nonlocals]
    simp [notGlobal, notNonlocal, found]
  have same : own = symbol := by
    rw [resolve, Node.identifier?, named, Option.getD_some, looked] at resolved
    exact Option.some.inj resolved
  subst same
  obtain ⟨_, scopeId, _⟩ := bindingsOf_symbol settles isSettled found
  exact ⟨model.scopeOf node, isSettled, received.key.trans (key.trans place), scopeId⟩

/-- The scopes of a statement, innermost first, are opened by the nodes around its spot. -/
theorem scopes_of_block {node : Node} {spot : Spot} (visited : Spot.Visited tree spot node)
    (block : node.form.isBlock = true) :
    ∀ scope ∈ model.scopeOf node :: model.around (model.scopeOf node),
      scope ∈ model.scopes ∧ scope.node ∈ tree.nodes ∧ scope.node.form.holdsBody = true ∧
        scope.node.form.scopeKind? = some scope.kind := by
  obtain ⟨openers, within, holds⟩ := visited.block_within wellFormed block
  have notParameter : ∀ name hint, node.form ≠ .parameter name hint := by
    intro name hint same
    rw [same] at block
    cases block
  obtain ⟨own, isOwn, received, isSettled, key⟩ :=
    scopeOf_visited settles wellFormed visited notParameter
  cases openers with
  | nil => cases within.nested
  | cons opener rest =>
      obtain ⟨scope, isScope, settled, member, opened, isNode, outer, found⟩ :=
        find_of_nested settles wellFormed within.nested
      have place : opener.id = spot.place.scope := (List.cons.inj within.chain).1.symm
      have same : model.scopeOf node = settled := by
        apply List.inj_on_of_nodup_map (settled_keys_nodup settles wellFormed) isSettled member
        rw [received.key, key, opened.key, Scope.key, isNode, place]
      -- Every scope in question was opened by one of the openers.
      have fromKey : ∀ other ∈ model.scopes, other.key ∈ (opener :: rest).map Node.id →
          other.node ∈ tree.nodes ∧ other.node.form.holdsBody = true ∧
            other.node.form.scopeKind? = some other.kind := by
        intro other isOther inOpeners
        obtain ⟨origin, isOrigin, originReceived⟩ := exists_recorded settles isOther
        have opens := ((recorded path tree).records origin isOrigin).opens
        obtain ⟨_, reached, kind, _⟩ := (Event.opens_iff wellFormed).mp opens
        rw [← originReceived.node] at reached kind
        rw [← originReceived.kind] at kind
        obtain ⟨first, isFirst, id⟩ := List.mem_map.mp inOpeners
        have inside := within.nested.visited isFirst
        have node := wellFormed.distinct.eq_of_id inside reached.mem id
        exact ⟨reached.mem, node ▸ holds first isFirst, kind⟩
      rw [same]
      intro other around
      have isOther : other ∈ model.scopes ∧ other.key ∈ (opener :: rest).map Node.id := by
        rcases List.mem_cons.mp around with rfl | around
        · refine ⟨member, ?_⟩
          rw [opened.key, Scope.key, isNode]
          exact List.mem_cons_self
        · unfold Model.around scopesAround at around
          rw [opened.outer, outer] at around
          obtain ⟨number, inRest, isFound⟩ := List.mem_filterMap.mp around
          obtain ⟨isOther, isKey⟩ :=
            (findScope?_eq_some (settled_keys_nodup settles wellFormed)).mp isFound
          rw [isKey]
          exact ⟨isOther, List.mem_cons_of_mem _ inRest⟩
      exact ⟨isOther.1, fromKey other isOther.1 isOther.2⟩

theorem frames_of_block {node : Node} (member : node ∈ tree.nodes)
    (block : node.form.isBlock = true) :
    ∀ frame ∈ model.frames (model.scopeOf node),
      frame ∈ model.scopes ∧ frame.node ∈ tree.nodes ∧ frame.node.form.isFunction = true := by
  intro frame isFrame
  obtain ⟨spot, visited⟩ := Spot.Visited.exists_of_mem member
  obtain ⟨around, notClass⟩ := List.mem_filter.mp isFrame
  have notModule := List.mem_takeWhile_imp around
  obtain ⟨isScope, inside, holds, kind⟩ :=
    scopes_of_block settles wellFormed visited block frame
      ((List.takeWhile_sublist _).subset around)
  refine ⟨isScope, inside, ?_⟩
  generalize frame.node.form = form at holds kind
  cases form with
  | functionDef isAsync name returns => rfl
  | module =>
      rw [← Option.some.inj kind] at notModule
      cases notModule
  | classDef name =>
      rw [← Option.some.inj kind] at notClass
      cases notClass
  | _ => cases holds

omit wellFormed in
theorem symbol?_of_mem_values {scope : Scope} {symbol : Symbol} (member : scope ∈ model.scopes)
    (listed : symbol ∈ scope.symbols.values) : scope.symbol? symbol.name = some symbol := by
  obtain ⟨⟨name, value⟩, entry, rfl⟩ := List.mem_map.mp listed
  obtain ⟨origin, isOrigin, received⟩ := exists_recorded settles member
  have blank : origin.symbols.Distinct := by
    rw [((recorded path tree).records origin isOrigin).symbols]
    exact List.nodup_nil
  have found : scope.symbol? name = some value := (received.distinct blank).mem_entries.mp entry
  rwa [(bindingsOf_symbol settles member found).1]

/-- A followed symbol lives in a function around the statement. -/
theorem scope_of_tracked {node : Node} {symbol : Symbol} (member : node ∈ tree.nodes)
    (block : node.form.isBlock = true)
    (tracked : symbol ∈ model.trackedSymbols (model.scopeOf node)) :
    ∃ frame ∈ model.frames (model.scopeOf node), frame ∈ model.scopes ∧
      frame.symbol? symbol.name = some symbol ∧ symbol.scopeId = frame.id ∧
        frame.node ∈ tree.nodes ∧ frame.node.form.isFunction = true := by
  obtain ⟨frame, isFrame, isSymbol⟩ := List.mem_flatMap.mp (SymbolSet.mem_ofList.mp tracked)
  obtain ⟨isScope, inside, isFunction⟩ :=
    frames_of_block settles wellFormed member block frame isFrame
  have found := symbol?_of_mem_values settles isScope (List.mem_filter.mp isSymbol).1
  have scopeId := (bindingsOf_symbol settles isScope found).2.1
  exact ⟨frame, isFrame, isScope, found, scopeId, inside, isFunction⟩

/-- No expression without assignment expressions binds a followed symbol. -/
theorem quiet_of_tracked {first node : Node} {symbol : Symbol} (member : first ∈ tree.nodes)
    (block : first.form.isBlock = true)
    (tracked : symbol ∈ model.trackedSymbols (model.scopeOf first)) (inside : node ∈ tree.nodes)
    (plain : ∀ inner ∈ node.nodes, inner.form ≠ .namedExpr) :
    (Frame.ofModel model (model.trackedSymbols (model.scopeOf first))).Quiet symbol node := by
  intro root isRoot expression lower isLower id context named occurs
  refine ⟨?_, trivial⟩
  by_contra bound
  have inTree := Node.nodes_trans isRoot inside
  obtain ⟨spot, visited⟩ := Spot.Visited.exists_of_mem inTree
  obtain ⟨inner, reached⟩ : ∃ inner, spot.Reaches root inner lower :=
    Spot.Reaches.exists_of_mem isLower
  have fitting := wellFormed.fits_expression inTree expression
  obtain ⟨opener, isOpener, kind, form, place⟩ := visited.name_in_comprehension fitting
    (fun inner isInner => plain inner (Node.nodes_trans isInner isRoot)) reached named bound
  obtain ⟨resolved, _⟩ := Option.filter_eq_some_iff.mp occurs
  obtain ⟨scope, isScope, key, scopeId⟩ := resolve_in_comprehension settles wellFormed
    (visited.trans reached) named bound isOpener form place resolved
  obtain ⟨frame, _, isFrame, _, frameId, frameInside, isFunction⟩ :=
    scope_of_tracked settles wellFormed member block tracked
  have same : frame = scope := List.inj_on_of_nodup_map (settled_ids_nodup settles) isFrame isScope
    (frameId.symm.trans scopeId)
  subst same
  have opened := wellFormed.distinct.eq_of_id frameInside isOpener key
  rw [opened, form] at isFunction
  cases isFunction

end

end Model

end SafeRefactor
