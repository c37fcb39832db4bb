import Mathlib.Data.List.Perm.Subperm
import OpenAPT.Json
import OpenAPT.Lib.XmlText

/-! `OpenAPT::XML`: the conversion of `pugi::xml_node` trees to JSON. -/
namespace OpenAPT
open XmlText (Node)

/-- `j[key] = value` where `j` is a null or an object. -/
def Json.put (j : Json) (key : Bytes) (value : Json) : Json :=
  match j with
  | .null => .object [(key, value)]
  | .object o => .object (KeyedList.insert key value o)
  | j => j

namespace XML

/-- The attributes of a node; a text has none. -/
def attributes : Node → List (Bytes × Bytes)
  | .element _ attributes _ => attributes
  | .text _ => []

/-- The first text, `""` if there is none. -/
def firstText : List Node → Bytes
  | [] => []
  | .text s :: _ => s
  | .element _ _ _ :: nodes => firstText nodes

def child_value : Node → Bytes
  | .element _ _ children => firstText children
  | .text _ => []

/-- The object with a member for each attribute and the member `value`. -/
def withValue (node : Node) : Json :=
  ((attributes node).foldl (fun (j : Json) a => j.put a.1 (.string a.2)) .null).put (bytes "value")
    (.string (child_value node))

mutual

/-- `node_to_json` on a node that is there. A text has no type and no children. -/
def node_to_json : Node → Json
  | .text _ => .null
  | .element name attributes children =>
    match KeyedList.find? (bytes "type") attributes with
    | some type =>
      if type = bytes "array" then Json.null.put name (.array (children.map withValue))
      else Json.null.put name (withValue (.element name attributes children))
    | none => convertChildren name .null children

/-- The loop over the children, each of which assigns `j[node.name()]`. -/
def convertChildren (name : Bytes) (j : Json) : List Node → Json
  | [] => j
  | child :: children => convertChildren name (j.put name (node_to_json child)) children

end

/-- `node_to_json` on a handle, which may be null. -/
def handle_to_json : Option Node → Json
  | none => Json.null.put [] .null
  | some node => node_to_json node

/-- What a tree or a JSON value is made of: the names of elements and attributes, which become keys
of members, and the values of attributes and the texts, which become strings. -/
inductive Item
  | name (n : Bytes)
  | text (s : Bytes)
  deriving DecidableEq

def attributeItems (attributes : List (Bytes × Bytes)) : List Item :=
  attributes.flatMap fun a => [.name a.1, .text a.2]

mutual

def treeItems : Node → List Item
  | .text s => [.text s]
  | .element name attributes children =>
    .name name :: (attributeItems attributes ++ childItems children)

def childItems : List Node → List Item
  | [] => []
  | child :: children => treeItems child ++ childItems children

end

mutual

def jsonItems : Json → List Item
  | .string s => [.text s]
  | .array a => elementItems a
  | .object o => memberItems o
  | _ => []

def elementItems : List Json → List Item
  | [] => []
  | j :: a => jsonItems j ++ elementItems a

def memberItems : List (Bytes × Json) → List Item
  | [] => []
  | m :: o => memberItem m ++ memberItems o

def memberItem : Bytes × Json → List Item
  | (key, j) => .name key :: jsonItems j

end

/-- Every item of the tree occurs in the JSON value, as often as in the tree. -/
def LosesNothing (node : Node) : Prop :=
  (treeItems node).Subperm (jsonItems (node_to_json node))

/-- The members of `withValue` in the order they are stored. -/
def storedMembers (node : Node) : List (Bytes × Json) :=
  ((attributes node).map fun a => (a.1, .string a.2)) ++
    [(bytes "value", .string (child_value node))]

/-- The items of the children other than the first text. -/
def otherItems : List Node → List Item
  | [] => []
  | .text _ :: nodes => childItems nodes
  | .element name attributes children :: nodes =>
    treeItems (.element name attributes children) ++ otherItems nodes

/-- The text that `child_value` makes up. -/
def madeUpText : List Node → List Item
  | [] => [.text []]
  | .text _ :: _ => []
  | .element _ _ _ :: nodes => madeUpText nodes

/-- What `withValue` drops: members that a later one overwrites, and all children but a text. -/
def withValueLost (node : Node) : List Item :=
  (KeyedList.overwritten [] (storedMembers node)).flatMap memberItem ++
    match node with
    | .element _ _ children => otherItems children
    | .text s => [.text s]

/-- What `withValue` makes up: the key `value`, and an empty text if there is none. -/
def withValueMadeUp (node : Node) : List Item :=
  [.name (bytes "value")] ++
    match node with
    | .element _ _ children => madeUpText children
    | .text _ => [.text []]

/-- The name of a child, which the array of a list does not keep. -/
def childName : Node → List Item
  | .element name _ _ => [.name name]
  | .text _ => []

mutual

/-- The items of a tree that are dropped by the conversion. -/
def lost : Node → List Item
  | .text s => [.text s]
  | .element name attributes children =>
    match KeyedList.find? (bytes "type") attributes with
    | some type =>
      if type = bytes "array" then
        attributeItems attributes ++
          children.flatMap fun child => childName child ++ withValueLost child
      else withValueLost (.element name attributes children)
    | none => attributeItems attributes ++ lostChildren name children

/-- All children but the last are dropped, and the name of an element without children. -/
def lostChildren (name : Bytes) : List Node → List Item
  | [] => [.name name]
  | [child] => lost child
  | child :: next :: children => treeItems child ++ lostChildren name (next :: children)

end

mutual

/-- The items of the JSON value that are not from the tree. -/
def madeUp : Node → List Item
  | .text _ => []
  | .element name attributes children =>
    match KeyedList.find? (bytes "type") attributes with
    | some type =>
      if type = bytes "array" then children.flatMap withValueMadeUp
      else withValueMadeUp (.element name attributes children)
    | none => madeUpChildren children

def madeUpChildren : List Node → List Item
  | [] => []
  | [child] => madeUp child
  | _ :: next :: children => madeUpChildren (next :: children)

end

theorem jsonItems_null : jsonItems .null = [] := rfl

theorem memberItems_eq (o : List (Bytes × Json)) : memberItems o = o.flatMap memberItem := by
  induction o with
  | nil => rfl
  | cons m o ih => rw [memberItems, List.flatMap_cons, ih]

theorem memberItem_attributes (attributes : List (Bytes × Bytes)) :
    (attributes.map fun a => (a.1, Json.string a.2)).flatMap memberItem =
      attributeItems attributes := by
  rw [List.flatMap_map]
  rfl

theorem foldl_put (attributes : List (Bytes × Bytes)) (o : List (Bytes × Json)) :
    attributes.foldl (fun (j : Json) a => j.put a.1 (.string a.2)) (.object o) =
      .object ((attributes.map fun a => (a.1, Json.string a.2)).foldl
        (fun m e => KeyedList.insert e.1 e.2 m) o) := by
  induction attributes generalizing o with
  | nil => rfl
  | cons a attributes ih => exact ih (KeyedList.insert a.1 (.string a.2) o)

theorem put_null (key : Bytes) (value : Json) :
    Json.null.put key value = (Json.object []).put key value := by
  rw [Json.put, Json.put, KeyedList.insert_nil]

theorem withValue_eq (node : Node) : withValue node =
    .object ((storedMembers node).foldl (fun m e => KeyedList.insert e.1 e.2 m) []) := by
  rw [withValue, storedMembers, List.foldl_append]
  cases attributes node with
  | nil => exact put_null _ _
  | cons a as =>
    have hfold : as.foldl (fun (j : Json) a => j.put a.1 (.string a.2))
        ((Json.object []).put a.1 (.string a.2)) = _ := foldl_put (a :: as) []
    rw [List.foldl_cons, put_null, hfold]
    rfl

/-- The account of the children of a described node. -/
theorem count_childItems (item : Item) (nodes : List Node) :
    (childItems nodes).count item + (madeUpText nodes).count item =
      (otherItems nodes).count item + [Item.text (firstText nodes)].count item := by
  induction nodes with
  | nil => rfl
  | cons node nodes ih =>
    cases node with
    | text s =>
      rw [childItems, treeItems, madeUpText, otherItems, firstText, List.count_append,
        List.count_nil]
      omega
    | element name attributes children =>
      rw [childItems, madeUpText, otherItems, firstText, List.count_append, List.count_append]
      omega

theorem count_storedMembers (item : Item) (node : Node) :
    (jsonItems (withValue node)).count item +
        ((KeyedList.overwritten [] (storedMembers node)).flatMap memberItem).count item =
      (attributeItems (attributes node)).count item + [Item.name (bytes "value")].count item +
        [Item.text (child_value node)].count item := by
  have hstored := (KeyedList.foldl_insert_perm [] (storedMembers node)).flatMap_right memberItem
  have hcount := hstored.count_eq item
  have hvalue : (memberItem (bytes "value", Json.string (child_value node))).count item =
      [Item.name (bytes "value")].count item + [Item.text (child_value node)].count item := by
    rw [memberItem, jsonItems, ← List.count_append]
    rfl
  have hmembers : ((storedMembers node).flatMap memberItem).count item =
      (attributeItems (attributes node)).count item + [Item.name (bytes "value")].count item +
        [Item.text (child_value node)].count item := by
    rw [storedMembers, List.flatMap_append, memberItem_attributes, List.flatMap_singleton,
      List.count_append, hvalue, Nat.add_assoc]
  rw [List.flatMap_append, List.count_append, ← memberItems_eq, List.nil_append] at hcount
  rw [withValue_eq, jsonItems, hcount, hmembers]

/-- The items of a node without its name. -/
def inside : Node → List Item
  | .element _ attributes children => attributeItems attributes ++ childItems children
  | .text s => [.text s]

theorem count_withValue (item : Item) (node : Node) :
    (jsonItems (withValue node)).count item + (withValueLost node).count item =
      (inside node).count item + (withValueMadeUp node).count item := by
  have hstored := count_storedMembers item node
  cases node with
  | text s =>
    rw [attributes, attributeItems, List.flatMap_nil, List.count_nil, child_value] at hstored
    rw [withValueLost, inside, withValueMadeUp, List.count_append, List.count_append]
    omega
  | element name attributes children =>
    have hchildren := count_childItems item children
    rw [XML.attributes, child_value] at hstored
    rw [withValueLost, inside, withValueMadeUp, List.count_append, List.count_append,
      List.count_append]
    omega

theorem treeItems_eq (node : Node) : treeItems node = childName node ++ inside node := by
  cases node <;> rfl

/-- The account of an array. -/
theorem count_map_withValue (item : Item) (children : List Node) :
    (elementItems (children.map withValue)).count item +
        (children.flatMap fun child => childName child ++ withValueLost child).count item =
      (childItems children).count item + (children.flatMap withValueMadeUp).count item := by
  induction children with
  | nil => rfl
  | cons child children ih =>
    have hchild := count_withValue item child
    rw [List.map_cons, elementItems, childItems, List.flatMap_cons, List.flatMap_cons, treeItems_eq]
    simp only [List.count_append]
    omega

theorem put_singleton (key : Bytes) (v w : Json) :
    (Json.object [(key, v)]).put key w = .object [(key, w)] := by
  have hfound : KeyedList.find? key [(key, v)] = some v := by
    rw [KeyedList.find?, if_pos rfl]
  rw [Json.put, KeyedList.insert_eq_replace hfound, KeyedList.replace, if_pos rfl]

/-- An assignment of the loop leaves nothing of the one before it. -/
theorem convertChildren_cons_cons (name : Bytes) (child next : Node) (children : List Node) :
    convertChildren name .null (child :: next :: children) =
      convertChildren name .null (next :: children) := by
  have hput : (Json.null.put name (node_to_json child)).put name (node_to_json next) =
      Json.null.put name (node_to_json next) := put_singleton _ _ _
  rw [convertChildren, convertChildren, convertChildren, hput]

mutual

/-- The account of a conversion: what the tree has and what is made up is in the JSON value or is
dropped. -/
theorem count_node_to_json (item : Item) : (node : Node) →
    (jsonItems (node_to_json node)).count item + (lost node).count item =
      (treeItems node).count item + (madeUp node).count item
  | .text s => by
    rw [node_to_json, jsonItems_null, lost, treeItems, madeUp, List.count_nil]
    omega
  | .element name attributes children => by
    cases htype : KeyedList.find? (bytes "type") attributes with
    | none =>
      have hchildren := count_convertChildren item name children
      rw [node_to_json, lost, madeUp, htype, treeItems_eq, childName, inside]
      simp only [List.count_append]
      omega
    | some type =>
      rw [node_to_json, lost, madeUp, htype]
      by_cases harray : type = bytes "array"
      · have hchildren := count_map_withValue item children
        have hitems : jsonItems (Json.null.put name (.array (children.map withValue))) =
            [.name name] ++ elementItems (children.map withValue) := by
          rw [Json.put, jsonItems, memberItems, memberItem, jsonItems, memberItems, List.append_nil]
          rfl
        simp only [harray, ↓reduceIte]
        rw [hitems, treeItems_eq, childName, inside]
        simp only [List.count_append]
        omega
      · have hvalue := count_withValue item (.element name attributes children)
        have hitems :
            jsonItems (Json.null.put name (withValue (.element name attributes children))) =
              [.name name] ++ jsonItems (withValue (.element name attributes children)) := by
          rw [Json.put, jsonItems, memberItems, memberItem, memberItems, List.append_nil]
          rfl
        simp only [harray, ↓reduceIte]
        rw [hitems, treeItems_eq, childName]
        simp only [List.count_append]
        omega

theorem count_convertChildren (item : Item) (name : Bytes) : (children : List Node) →
    (jsonItems (convertChildren name .null children)).count item +
        (lostChildren name children).count item =
      [Item.name name].count item + (childItems children).count item +
        (madeUpChildren children).count item
  | [] => by
    rw [convertChildren, jsonItems_null, lostChildren, childItems, madeUpChildren, List.count_nil]
    omega
  | [child] => by
    have hchild := count_node_to_json item child
    have hitems : jsonItems (convertChildren name .null [child]) =
        [.name name] ++ jsonItems (node_to_json child) := by
      rw [convertChildren, convertChildren, Json.put, jsonItems, memberItems, memberItem,
        memberItems, List.append_nil]
      rfl
    rw [hitems, lostChildren, childItems, childItems, madeUpChildren]
    simp only [List.count_append, List.count_nil]
    omega
  | child :: next :: children => by
    have hrest := count_convertChildren item name (next :: children)
    rw [convertChildren_cons_cons, lostChildren, childItems, madeUpChildren]
    simp only [List.count_append]
    omega

end

theorem losesNothing_iff_subperm (node : Node) :
    LosesNothing node ↔ (lost node).Subperm (madeUp node) := by
  rw [LosesNothing, List.subperm_ext_iff, List.subperm_ext_iff]
  constructor
  · intro h item _
    have haccount := count_node_to_json item node
    by_cases hmem : item ∈ treeItems node
    · have hle := h item hmem
      omega
    · rw [List.count_eq_zero_of_not_mem hmem] at haccount
      omega
  · intro h item _
    have haccount := count_node_to_json item node
    by_cases hmem : item ∈ lost node
    · have hle := h item hmem
      omega
    · rw [List.count_eq_zero_of_not_mem hmem] at haccount
      omega

/-- The trees of which nothing is dropped: elements without attributes that have one child each,
and at the end an element with a type that is not `array`, other attributes than `value`, all
different, and at most a text. -/
inductive Kept : Node → Prop
  | typed {name type : Bytes} {attributes : List (Bytes × Bytes)} {children : List Node}
      (htype : KeyedList.find? (bytes "type") attributes = some type)
      (harray : type ≠ bytes "array")
      (hnames : (attributes.map Prod.fst ++ [bytes "value"]).Nodup)
      (hchildren : children = [] ∨ ∃ s, children = [.text s]) :
      Kept (.element name attributes children)
  | only {name : Bytes} {child : Node} (hchild : Kept child) : Kept (.element name [] [child])

theorem treeItems_ne_nil (node : Node) : treeItems node ≠ [] := by
  cases node with
  | text s => exact List.cons_ne_nil _ _
  | element name attributes children => exact List.cons_ne_nil _ _

theorem otherItems_eq_nil_iff {nodes : List Node} :
    otherItems nodes = [] ↔ nodes = [] ∨ ∃ s, nodes = [.text s] := by
  cases nodes with
  | nil => simp [otherItems]
  | cons node nodes =>
    cases node with
    | element name attributes children =>
      simp [otherItems, treeItems_ne_nil]
    | text s =>
      cases nodes with
      | nil => simp [otherItems, childItems]
      | cons next nodes => simp [otherItems, childItems, treeItems_ne_nil]

theorem attributeItems_eq_nil_iff {attributes : List (Bytes × Bytes)} :
    attributeItems attributes = [] ↔ attributes = [] := by
  cases attributes with
  | nil => exact iff_of_true rfl rfl
  | cons a attributes =>
    exact iff_of_false (List.cons_ne_nil _ _) (List.cons_ne_nil _ _)

theorem overwritten_storedMembers_eq_nil_iff (node : Node) :
    KeyedList.overwritten [] (storedMembers node) = [] ↔
      ((attributes node).map Prod.fst ++ [bytes "value"]).Nodup := by
  have hkeys : (storedMembers node).map Prod.fst =
      (attributes node).map Prod.fst ++ [bytes "value"] := by
    rw [storedMembers, List.map_append, List.map_map]
    rfl
  rw [KeyedList.overwritten_eq_nil_iff, hkeys]
  simp only [KeyedList.find?_nil, implies_true, and_true]

theorem withValueLost_eq_nil_iff {name : Bytes} {attributes : List (Bytes × Bytes)}
    {children : List Node} : withValueLost (.element name attributes children) = [] ↔
      (attributes.map Prod.fst ++ [bytes "value"]).Nodup ∧
        (children = [] ∨ ∃ s, children = [.text s]) := by
  have hmember (m : Bytes × Json) : memberItem m ≠ [] := by
    rw [memberItem]
    exact List.cons_ne_nil _ _
  have hmembers (o : List (Bytes × Json)) : o.flatMap memberItem = [] ↔ o = [] := by
    cases o with
    | nil => simp
    | cons m o => simp [hmember]
  rw [withValueLost, List.append_eq_nil_iff, hmembers, overwritten_storedMembers_eq_nil_iff,
    otherItems_eq_nil_iff, XML.attributes]

theorem lost_eq_nil_iff : (node : Node) → (lost node = [] ↔ Kept node)
  | .text s => by
    refine iff_of_false (List.cons_ne_nil _ _) fun h => ?_
    cases h
  | .element name attributes children => by
    cases htype : KeyedList.find? (bytes "type") attributes with
    | some type =>
      rw [lost, htype]
      by_cases harray : type = bytes "array"
      · simp only [harray, ↓reduceIte]
        refine iff_of_false (fun h => ?_) fun h => ?_
        · have hnil := (List.append_eq_nil_iff.mp h).1
          rw [attributeItems_eq_nil_iff] at hnil
          rw [hnil] at htype
          cases htype
        · cases h with
          | typed htype' hne _ _ =>
            obtain rfl := Option.some.inj (htype.symm.trans htype')
            exact hne harray
          | only _ => cases htype
      · simp only [harray, ↓reduceIte]
        rw [withValueLost_eq_nil_iff]
        constructor
        · intro ⟨hnames, hchildren⟩
          exact Kept.typed htype harray hnames hchildren
        · intro h
          cases h with
          | typed _ _ hnames hchildren => exact ⟨hnames, hchildren⟩
          | only _ => cases htype
    | none =>
      rw [lost, htype]
      dsimp only
      rw [List.append_eq_nil_iff, attributeItems_eq_nil_iff]
      match children with
      | [] =>
        refine iff_of_false (fun h => ?_) fun h => ?_
        · cases h.2
        · cases h with
          | typed htype' _ _ _ => cases htype.symm.trans htype'
      | [child] =>
        rw [lostChildren, lost_eq_nil_iff child]
        constructor
        · rintro ⟨rfl, hchild⟩
          exact Kept.only hchild
        · intro h
          cases h with
          | typed htype' _ _ _ => cases htype.symm.trans htype'
          | only hchild => exact ⟨rfl, hchild⟩
      | child :: next :: rest =>
        refine iff_of_false (fun h => ?_) fun h => ?_
        · rw [lostChildren, List.append_eq_nil_iff] at h
          exact treeItems_ne_nil child h.2.1
        · cases h with
          | typed htype' _ _ _ => cases htype.symm.trans htype'

/-- A conversion loses nothing exactly where all it drops happens to be among what it makes up, and
it drops nothing exactly on the trees of `Kept`. -/
theorem losesNothing_iff (node : Node) :
    (LosesNothing node ↔ (lost node).Subperm (madeUp node)) ∧ (lost node = [] ↔ Kept node) :=
  ⟨losesNothing_iff_subperm node, lost_eq_nil_iff node⟩

/-- An element with a type and a text. -/
def typedElement (name type s : Bytes) : Node := .element name [(bytes "type", type)] [.text s]

/-- Of two siblings the first is lost, and the text of an element without a type. -/
theorem not_losesNothing :
    ¬LosesNothing (.element (bytes "root") []
      [typedElement (bytes "a") (bytes "int") (bytes "1"),
        typedElement (bytes "a") (bytes "int") (bytes "2")]) ∧
      ¬LosesNothing (.element (bytes "root") [] [.text (bytes "1")]) := by
  constructor
  · intro h
    have hcount := h.count_le (.text (bytes "1"))
    revert hcount
    decide
  · intro h
    have hcount := h.count_le (.text (bytes "1"))
    revert hcount
    decide

end XML

end OpenAPT
