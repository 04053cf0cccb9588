/-
The text by which a message names a step.
-/
import PropertyGraph.Plan.Step
import PropertyGraph.Text.Quoted

namespace PropertyGraph

namespace Describe

/-- Texts with commas between them, in brackets. -/
def list (items : List String) : String := "[" ++ String.intercalate ", " items ++ "]"

def texts (items : List String) : String := list (items.map Text.quoted)

mutual

/-- A JSON value with its kind. -/
def json : Json → String
  | .null => "Null"
  | .bool b => "Bool(" ++ (if b then "true" else "false") ++ ")"
  | .num n => "Number(" ++ String.ofList n.text ++ ")"
  | .str s => "String(" ++ Text.quoted s ++ ")"
  | .arr items => "Array " ++ list (jsonItems items)
  | .obj fields => "Object \x7b" ++ String.intercalate ", " (jsonFields fields) ++ "\x7d"

def jsonItems : List Json → List String
  | [] => []
  | j :: rest => json j :: jsonItems rest

def jsonFields : List (String × Json) → List String
  | [] => []
  | (k, j) :: rest => (Text.quoted k ++ ": " ++ json j) :: jsonFields rest

end

/-- A name with named parts. -/
def record (name : String) (parts : List (String × String)) : String :=
  name ++ " \x7b " ++ String.intercalate ", " (parts.map fun (k, v) => k ++ ": " ++ v) ++
    " \x7d"

def selection : Selection → String
  | .all => "All"
  | .one id => "One(" ++ Text.quoted id ++ ")"
  | .many ids => "Many(" ++ texts ids ++ ")"

def direction : Direction → String
  | .outgoing => "Out"
  | .incoming => "In"

def adjacency : Adjacency → String
  | .edges => "Edges"
  | .vertices => "Vertices"

def edgeTo : EdgeTo → String
  | .target => "Out"
  | .source => "In"
  | .both => "Both"
  | .other none => "Other(None)"
  | .other (some known) => "Other(Some(" ++ Text.quoted known ++ "))"

end Describe

open Describe in
/-- The text by which a message names a step. -/
def Step.describe : Step → String
  | .root => "Root"
  | .vertices ids => "Vertices(" ++ selection ids ++ ")"
  | .edges ids => "Edges(" ++ selection ids ++ ")"
  | .addVertex l => record "AddVertex" [("label", Text.quoted l)]
  | .addEdge l source target =>
    record "AddEdge"
      [("label", Text.quoted l), ("from", Text.quoted source), ("to", Text.quoted target)]
  | .dropGraph => "DropGraph"
  | .verticesWithLabel l => record "VerticesWithLabel" [("label", Text.quoted l)]
  | .adjacent d a labels =>
    record "Adjacent" [("direction", direction d), ("adjacent", adjacency a),
      ("labels", texts labels)]
  | .bothEdges labels => record "BothEdges" [("labels", texts labels)]
  | .edgeVertex ends => "EdgeVertex(" ++ edgeTo ends ++ ")"
  | .has key value => record "Has" [("key", Text.quoted key), ("value", json value)]
  | .property key value => record "Property" [("key", Text.quoted key), ("value", json value)]
  | .drop => "Drop"
  | .id => "Id"
  | .label => "Label"
  | .properties keys => record "Properties" [("keys", texts keys)]
  | .valueMap keys => record "ValueMap" [("keys", texts keys)]
  | .limit n => "Limit(" ++ n.repr ++ ")"
  | .count => "Count"

end PropertyGraph
