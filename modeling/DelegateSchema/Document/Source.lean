/-
  DelegateSchema.Document.Source — documents from JSON and YAML text.

  A text that breaks off is still read as far as it goes, so the first fault in the order of the
  text is the one reported.  In YAML the declarations are settled before they are read, exactly
  as their JSON form would be; only the attribute declarations and the document itself take a
  scalar of any spelling for a text.
-/
import DelegateSchema.Document.Decoding
import DelegateSchema.Json.Reader
import DelegateSchema.Yaml.Reader
import DelegateSchema.Yaml.Record

namespace DelegateSchema

open Json (fill)

/-- The two notations of a document. -/
inductive Format where
  | json
  | yaml
  deriving DecidableEq

/-- An attribute declaration. -/
def AttributeDecl.ofYaml (v : Yaml) : Decoded AttributeDecl := do
  let d ← v.toRecord {} fun (d : AttributeDecl.Draft) key x =>
    if key = "name" then do return { d with name := ← fill key d.name x.toText }
    else if key = "prisma" then do return { d with target := ← fill key d.target x.toBool }
    else if key = "params" then do
      return { d with params := ← fill key d.params (x.toList Yaml.toText) }
    else if key = "alias_of" then do return { d with aliasOf := ← fill key d.aliasOf x.toText? }
    else x.skip d
  d.finish

/-- A document. -/
def Document.ofYaml (v : Yaml) : Decoded Document := do
  let d ← v.toRecord {} fun (d : Document.Draft) key x =>
    if key = "attributes" then do
      return { d with attributes := ← fill key d.attributes (x.toList AttributeDecl.ofYaml) }
    else if key = "flattened" then do
      return { d with flattened := ← fill key d.flattened x.toBool }
    else if key = "declarations" then do
      return { d with
        declarations := ← fill key d.declarations
          (x.toList fun y => Declaration.ofJson y.toJson) }
    else x.skip d
  return d.finish

/-- Reads a document from its text; nothing but blanks may follow it. -/
def Document.parse (format : Format) (text : String) : Decoded Document :=
  match format with
  | .json => do
    let source := Json.read text
    let document ← Document.ofJson source.tree
    if source.finished then return document else .error .broken
  | .yaml => do
    let source := Yaml.read text
    let document ← Document.ofYaml source.tree
    if source.finished then return document else .error .broken

end DelegateSchema
