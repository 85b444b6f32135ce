/-
  DelegateSchema.Target.Text — the text of target schemas.

  Blocks stand apart by one empty line, their content is indented by four blanks, and
  documentation stands right above what it belongs to.
-/
import DelegateSchema.Document.Printer
import DelegateSchema.Target.Basic

namespace DelegateSchema.Target

/-- The indentation of the content of a block. -/
def indent : String := "    "

/-! ## §1. Attributes -/

namespace Value

mutual

/-- The text of an argument value. -/
def text : Value → String
  | .string s => Text.Quoted.write '"' s
  | .number n => n
  | .boolean b => if b then "true" else "false"
  | .field name [] => name
  | .field name args =>
    name ++ "(" ++ ", ".intercalate (args.map fun arg => labelled arg.name arg.value) ++ ")"
  | .call function args => function ++ "(" ++ ", ".intercalate args ++ ")"
  | .array items => "[" ++ ", ".intercalate (itemTexts items) ++ "]"

/-- The texts of the items of an array. -/
def itemTexts : List Value → List String
  | [] => []
  | item :: rest => item.text :: itemTexts rest

end

end Value

/-- The text of an argument. -/
def Arg.text (arg : Arg) : String :=
  labelled arg.name arg.value.text

/-- The text of an attribute; without arguments there are no parentheses. -/
def Attribute.text : Attribute → String
  | .verbatim text => text
  | .named a =>
    if a.args.isEmpty then a.name
    else a.name ++ "(" ++ ", ".intercalate (a.args.map Arg.text) ++ ")"

/-! ## §2. Lines -/

/-- The texts one after the other. -/
def concat (texts : List String) : String :=
  texts.foldr (· ++ ·) ""

/-- Documentation lines, each after the given indentation. -/
def docText (before : String) (docs : List String) : String :=
  concat (docs.map fun doc => before ++ doc ++ "\n")

/-- Attributes after a field, each after a blank. -/
def inlineText (attributes : List Attribute) : String :=
  concat (attributes.map fun a => " " ++ a.text)

/-- The attributes of a block: after an empty line, one on each line. -/
def sectionText (attributes : List Attribute) : String :=
  if attributes.isEmpty then ""
  else "\n" ++ concat (attributes.map fun a => indent ++ a.text ++ "\n")

/-- The text of a type. -/
def FieldType.text (t : FieldType) : String :=
  t.name ++ (if t.array then "[]" else "") ++ (if t.optional then "?" else "")

/-- The lines of a field, indentation and line ends included. -/
def Field.text (f : Field) : String :=
  docText indent f.docs ++ indent ++ f.name ++ " " ++ f.type.text ++ inlineText f.attributes ++ "\n"

/-- The lines of an enum value, indentation and line ends included. -/
def EnumField.text (f : EnumField) : String :=
  docText indent f.docs ++ indent ++ f.name ++ inlineText f.attributes ++ "\n"

/-! ## §3. Blocks -/

/-- The opening line of a block. -/
def opening (keyword name : String) : String :=
  keyword ++ " " ++ name ++ " \x7b\n"

/-- The end of a block, without a line end. -/
def closing : String := "\x7d"

/-- The text of a data source or a generator. -/
def ConfigBlock.text (keyword : String) (b : ConfigBlock) : String :=
  opening keyword b.name ++
    concat (b.settings.map fun s => indent ++ s.name ++ " = " ++ s.text ++ "\n") ++ closing

/-- The text of a model or a view. -/
def ModelBlock.text (b : ModelBlock) : String :=
  docText "" b.docs ++ opening (if b.isView then "view" else "model") b.name ++
    concat (b.fields.map Field.text) ++ sectionText b.attributes ++ closing

/-- The text of an enum. -/
def EnumBlock.text (b : EnumBlock) : String :=
  docText "" b.docs ++ opening "enum" b.name ++ concat (b.fields.map EnumField.text) ++
    sectionText b.attributes ++ closing

/-- The text of a block. -/
def Block.text : Block → String
  | .datasource b => b.text "datasource"
  | .generator b => b.text "generator"
  | .model b => b.text
  | .enum b => b.text

/-- The text of a schema. -/
def Schema.text (s : Schema) : String :=
  "\n\n".intercalate (s.blocks.map Block.text)

/-! ## §4. Files -/

/-- The notice at the top of a generated file, and an empty line. -/
def banner : String :=
  "//////////////////////////////////////////////////////////////////////////////////////////////\n" ++
  "// DO NOT MODIFY THIS FILE                                                                  //\n" ++
  "// This file is automatically generated by polyschema and should not be manually updated.   //\n" ++
  "//////////////////////////////////////////////////////////////////////////////////////////////\n" ++
  "\n"

/-- The content of a generated file. -/
def Schema.fileText (s : Schema) : String :=
  banner ++ s.text ++ "\n"

end DelegateSchema.Target
