import Mathlib.Data.List.Nodup
import SafeRefactor.Member.Inventory

/-!
# First declarations

The members of a class are its declarations, of each name the first one.  The statements
of the body declare first, then the methods that are bound to an instance, each by what it
stores in attributes of its receiver.  A method is searched with a stack of trees; the
stack gives the nodes of its body in the order of the recursion on trees, where nothing in
a class definition is visited.
-/

namespace SafeRefactor

namespace Node

mutual

/-- The nodes of a tree in preorder, without class definitions and what is in them. -/
def ownNodes : Node → List Node
  | .mk form info children =>
      if form.isClass then [] else .mk form info children :: ownNodesList children

def ownNodesList : List Node → List Node
  | [] => []
  | node :: rest => node.ownNodes ++ ownNodesList rest

end

private theorem ownNodesList_append (front back : List Node) :
    ownNodesList (front ++ back) = ownNodesList front ++ ownNodesList back := by
  induction front with
  | nil => rfl
  | cons node rest induction =>
      rw [List.cons_append, ownNodesList, ownNodesList, induction, List.append_assoc]

private theorem ownNodes_of_class {node : Node} (isClass : node.form.isClass = true) :
    node.ownNodes = [] := by
  cases node with
  | mk form info children => exact if_pos isClass

private theorem ownNodes_of_not_class {node : Node} (notClass : ¬node.form.isClass = true) :
    node.ownNodes = node :: ownNodesList node.children := by
  cases node with
  | mk form info children => exact if_neg notClass

/-- The names that a statement of a class body declares: the name of a function, the names that the
targets of an assignment store, or the name that is annotated. -/
def declaredNames (statement : Node) : List String :=
  match statement.form with
  | .functionDef _ name _ => [name]
  | .assign =>
      (statement.field .target).flatMap fun target => target.storedNames.filterMap identifier?
  | .annAssign _ => ((statement.only? .target).bind identifier?).toList
  | _ => []

private theorem map_identifier_storedNames (target : Node) :
    target.storedNames.map (fun node => node.identifier?.getD "") =
      target.storedNames.filterMap identifier? := by
  rw [← List.filterMap_eq_map]
  apply List.filterMap_congr
  intro node isStored
  have isName := (List.mem_filter.mp isStored).2
  split at isName
  · next id context form =>
      have named : node.identifier? = some id := by rw [identifier?, form]
      rw [Function.comp_apply, named, Option.getD_some]
  · cases isName

/-- The name of an attribute of the receiver that is stored. -/
def storedAttribute? (receiver : String) (node : Node) : Option String :=
  match node.form with
  | .attribute name .store =>
      if (node.only? .value).any (fun object => object.isNamed receiver) then some name else none
  | _ => none

/-- The attributes of the receiver that a plain, annotated or augmented assignment stores, target
after target and each target level by level. -/
def storedAttributes (receiver : String) (statement : Node) : List String :=
  match statement.form with
  | .assign | .annAssign _ | .augAssign =>
      (statement.field .target).flatMap fun target =>
        target.walk.filterMap (storedAttribute? receiver)
  | _ => []

/-- The attributes of its receiver that a method stores.  A method without a parameter that is
passed by position has no receiver. -/
def receiverAttributes (method : Node) : List String :=
  method.selfParameter?.toList.flatMap fun receiver =>
    (ownNodesList (method.field .body)).flatMap (storedAttributes receiver)

end Node

namespace Member

/-- The stack of trees gives its nodes in the order of the recursion. -/
theorem outsideClasses_eq (stack : List Node) :
    outsideClasses stack = Node.ownNodesList stack := by
  induction stack using outsideClasses.induct with
  | case1 => rw [outsideClasses, Node.ownNodesList]
  | case2 node rest isClass induction =>
      rw [outsideClasses, if_pos isClass, Node.ownNodesList,
        Node.ownNodes_of_class isClass, induction]
      rfl
  | case3 node rest notClass induction =>
      rw [outsideClasses, if_neg notClass, Node.ownNodesList, Node.ownNodes_of_not_class notClass,
        induction, Node.ownNodesList_append]
      rfl

def sameName (member earlier : Member) : Bool :=
  member.name = earlier.name

def bodyDeclarations (definition : Node) : List Member :=
  (definition.field .body).flatMap (ofStatement definition.className)

/-- The fields that a method declares: what the nodes of its body, one after the other, store in
attributes of its receiver. -/
def storedFields (className : String) (method : Node) : List Member :=
  method.selfParameter?.toList.flatMap fun receiver =>
    (Node.ownNodesList (method.field .body)).flatMap
      (ofReceiverStores className receiver (parameterTypes method))

/-- The declarations of the methods of a class, one method after the other. -/
def receiverDeclarations (definition : Node) : List Member :=
  definition.instanceMethods.flatMap (storedFields definition.className)

theorem ofMethod_eq (className : String) (method : Node) :
    ofMethod className method = storedFields className method := by
  unfold ofMethod storedFields
  cases method.selfParameter? with
  | none => rfl
  | some receiver =>
      rw [outsideClasses_eq, Option.toList_some, List.flatMap_singleton]

theorem declarations_eq (definition : Node) :
    declarations definition = bodyDeclarations definition ++ receiverDeclarations definition := by
  have fields : ofMethod definition.className = storedFields definition.className :=
    funext (ofMethod_eq definition.className)
  rw [declarations, fields]
  rfl

section

variable {members : List Member} {added : Member}

private theorem addNew_of_known
    (known : members.any (fun other => other.name = added.name) = true) :
    addNew members added = members :=
  if_pos known

private theorem addNew_of_new (new : ¬members.any (fun other => other.name = added.name) = true) :
    addNew members added = members ++ [added] :=
  if_neg new

private theorem nodup_addNew (distinct : (members.map name).Nodup) :
    ((addNew members added).map name).Nodup := by
  by_cases known : members.any (fun other => other.name = added.name) = true
  · rwa [addNew_of_known known]
  · rw [addNew_of_new known, List.map_append, List.map_singleton]
    apply List.nodup_append.mpr
    refine ⟨distinct, List.nodup_singleton _, ?_⟩
    intro taken isTaken new isNew same
    obtain ⟨other, isThere, rfl⟩ := List.mem_map.mp isTaken
    obtain rfl := List.mem_singleton.mp isNew
    exact known (List.any_eq_true.mpr ⟨other, isThere, decide_eq_true same⟩)

private theorem find?_addNew (wanted : String) :
    (addNew members added).find? (fun member => member.name = wanted) =
      (members ++ [added]).find? (fun member => member.name = wanted) := by
  by_cases known : members.any (fun other => other.name = added.name) = true
  · rw [addNew_of_known known, List.find?_append]
    obtain ⟨other, isThere, same⟩ := List.any_eq_true.mp known
    by_cases isWanted : added.name = wanted
    · have found : (members.find? (fun member => member.name = wanted)).isSome = true := by
        rw [List.find?_isSome]
        exact ⟨other, isThere, decide_eq_true ((of_decide_eq_true same).trans isWanted)⟩
      rw [Option.or_of_isSome found]
    · rw [List.find?_singleton, if_neg (by simpa using isWanted), Option.or_none]
  · rw [addNew_of_new known]

end

theorem nodup_foldl_addNew (items members : List Member) (distinct : (members.map name).Nodup) :
    ((items.foldl addNew members).map name).Nodup := by
  induction items generalizing members with
  | nil => exact distinct
  | cons item rest induction => exact induction _ (nodup_addNew distinct)

theorem find?_foldl_addNew (items members : List Member) (wanted : String) :
    (items.foldl addNew members).find? (fun member => member.name = wanted) =
      (members ++ items).find? (fun member => member.name = wanted) := by
  induction items generalizing members with
  | nil => rw [List.foldl_nil, List.append_nil]
  | cons item rest induction =>
      rw [List.foldl_cons, induction, List.find?_append, find?_addNew, ← List.find?_append,
        List.append_assoc, List.singleton_append]

/-- Adding items one after the other keeps the first of each name, as far as the names are new. -/
theorem foldl_addNew (items members : List Member) :
    items.foldl addNew members =
      members ++ (items.filter (fun item =>
        !members.any (fun other => other.name = item.name))).eraseDupsBy sameName := by
  induction items generalizing members with
  | nil => simp
  | cons item rest induction =>
      rw [List.foldl_cons, induction]
      by_cases known : members.any (fun other => other.name = item.name) = true
      · rw [addNew_of_known known, List.filter_cons_of_neg (by simp only [known]; exact nofun)]
      · rw [addNew_of_new known, List.filter_cons_of_pos (by simpa using known),
          List.eraseDupsBy_cons, List.filter_filter, List.append_assoc, List.singleton_append]
        congr 3
        apply List.filter_congr
        intro other _
        simp [sameName, Bool.and_comm, eq_comm]

/-- The names of the members that are first of their name are the names, each once. -/
theorem map_name_eraseDupsBy (items : List Member) :
    (items.eraseDupsBy sameName).map name = (items.map name).eraseDups := by
  -- What is left after one step is a filtered tail, so the induction is on the length.
  induction length : items.length using Nat.strongRecOn generalizing items with
  | ind length induction =>
      cases items with
      | nil => rfl
      | cons first rest =>
          subst length
          rw [List.eraseDupsBy_cons, List.map_cons, List.map_cons, List.eraseDups_cons]
          rw [induction _ (Nat.lt_succ_of_le (List.length_filter_le ..)) _ rfl, List.filter_map]
          congr 4
          funext other
          simp [sameName, beq_eq_decide]

theorem map_name_ofStatement (className : String) (statement : Node) :
    (ofStatement className statement).map name = statement.declaredNames := by
  unfold ofStatement Node.declaredNames
  cases statement.form with
  | functionDef isAsync name returns => rfl
  | assign =>
      rw [List.map_flatMap]
      congr 1
      funext target
      rw [List.map_map, ← Node.map_identifier_storedNames]
      rfl
  | annAssign hint =>
      cases statement.only? .target with
      | none => rfl
      | some target =>
          simp only [Option.bind_some]
          cases identifier : target.identifier? with
          | none => rfl
          | some id => simp [ofName, identifier]
  | _ => rfl

theorem map_name_ofAttribute (className receiver : String) (declaredType : Printed)
    (statement node : Node) :
    (ofAttribute className receiver declaredType statement node).map name =
      node.storedAttribute? receiver := by
  unfold ofAttribute Node.storedAttribute?
  cases node.form with
  | «attribute» stored context =>
      cases context with
      | store =>
          dsimp only
          split
          · rfl
          · rfl
      | _ => rfl
  | _ => rfl

theorem map_name_ofReceiverStores (className receiver : String)
    (parameterTypes : List (String × Printed)) (statement : Node) :
    (ofReceiverStores className receiver parameterTypes statement).map name =
      statement.storedAttributes receiver := by
  unfold ofReceiverStores Node.storedAttributes
  cases statement.form with
  | assign => simp only [List.map_flatMap, List.map_filterMap, map_name_ofAttribute]
  | annAssign hint => simp only [List.map_flatMap, List.map_filterMap, map_name_ofAttribute]
  | augAssign => simp only [List.map_flatMap, List.map_filterMap, map_name_ofAttribute]
  | _ => rfl

theorem map_name_storedFields (className : String) (method : Node) :
    (storedFields className method).map name = method.receiverAttributes := by
  simp only [storedFields, Node.receiverAttributes, List.map_flatMap, map_name_ofReceiverStores]

theorem map_name_declared (definition : Node) :
    (bodyDeclarations definition ++ receiverDeclarations definition).map name =
      (definition.field .body).flatMap Node.declaredNames ++
        definition.instanceMethods.flatMap Node.receiverAttributes := by
  have body : (fun statement => (ofStatement definition.className statement).map name) =
      Node.declaredNames := funext (map_name_ofStatement definition.className)
  have methods : (fun method => (storedFields definition.className method).map name) =
      Node.receiverAttributes := funext (map_name_storedFields definition.className)
  rw [List.map_append, bodyDeclarations, receiverDeclarations, List.map_flatMap, List.map_flatMap,
    body, methods]

/-- The members of a class are its first declarations.  Listed are the declarations of the body and
then those of the methods bound to an instance, the body of a method in the order of the recursion
on trees.  Of the declarations of one name the first is kept, so that each name occurs once and
means its first declaration.  The search of a method with a stack of trees is that recursion,
whatever is on the stack. -/
theorem members_are_first_declarations (definition : Node) :
    ((ofClass definition).map name).Nodup ∧
      ofClass definition =
        (bodyDeclarations definition ++ receiverDeclarations definition).eraseDupsBy sameName ∧
      (ofClass definition).map name =
        ((definition.field .body).flatMap Node.declaredNames ++
          definition.instanceMethods.flatMap Node.receiverAttributes).eraseDups ∧
      (∀ wanted, (ofClass definition).find? (fun member => member.name = wanted) =
        (bodyDeclarations definition ++ receiverDeclarations definition).find?
          (fun member => member.name = wanted)) ∧
      ∀ stack, outsideClasses stack = Node.ownNodesList stack := by
  have added : ofClass definition =
      (bodyDeclarations definition ++ receiverDeclarations definition).foldl addNew [] := by
    rw [ofClass, declarations_eq]
  have first : ofClass definition =
      (bodyDeclarations definition ++ receiverDeclarations definition).eraseDupsBy sameName := by
    rw [added, foldl_addNew]
    simp
  refine ⟨?_, first, ?_, ?_, outsideClasses_eq⟩
  · rw [added]
    exact nodup_foldl_addNew _ [] List.nodup_nil
  · rw [first, map_name_eraseDupsBy, map_name_declared]
  · intro wanted
    rw [added, find?_foldl_addNew, List.nil_append]

/-- The class `Table` with a method `load(self, rows)` and, on line 8, the assignment `size = 2`. 
The body of the method has a conditional with a class that stores `self.kind`, then the assignment
`self.rows, self.size = rows, 0` on line 6, and after it `self.size = 1` on line 7. -/
def tableClass : Node :=
  let receiver : Node := .mk (.name "self" .load) {role := .value} []
  let stored (name : String) (role : Role) (span : Span) : Node :=
    .mk (.attribute name .store) {role, span := some span} [receiver]
  .mk (.classDef "Table") {role := .body, span := some ⟨⟨1, 0⟩, ⟨8, 12⟩⟩} [
    .mk (.functionDef false "load" none) {role := .body, span := some ⟨⟨2, 4⟩, ⟨7, 21⟩⟩} [
      .mk (.parameters []) {role := .parameters} [
        .mk (.parameter "self" none) {role := .positional} [],
        .mk (.parameter "rows" none) {role := .positional} []],
      .mk .ifStmt {role := .body} [
        .mk (.name "rows" .load) {role := .test} [],
        .mk (.classDef "Row") {role := .body} [
          .mk .assign {role := .body} [
            stored "kind" .target ⟨⟨5, 16⟩, ⟨5, 25⟩⟩,
            .mk (.constant .int "1") {role := .value} []]],
        .mk .assign {role := .body} [
          .mk (.tuple .store) {role := .target} [
            stored "rows" .element ⟨⟨6, 12⟩, ⟨6, 21⟩⟩,
            stored "size" .element ⟨⟨6, 23⟩, ⟨6, 32⟩⟩],
          .mk (.tuple .load) {role := .value} [
            .mk (.name "rows" .load) {role := .element} [],
            .mk (.constant .int "0") {role := .element} []]]],
      .mk .assign {role := .body} [
        stored "size" .target ⟨⟨7, 8⟩, ⟨7, 17⟩⟩,
        .mk (.constant .int "1") {role := .value} []]],
    .mk .assign {role := .body} [
      .mk (.name "size" .store) {role := .target, span := some ⟨⟨8, 4⟩, ⟨8, 8⟩⟩} [],
      .mk (.constant .int "2") {role := .value} []]]

example : (ofClass tableClass).map (fun member => (member.name, member.line)) =
    [("load", 2), ("size", 8), ("rows", 6)] := by cbv

end Member

end SafeRefactor
