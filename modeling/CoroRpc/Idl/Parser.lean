import CoroRpc.Idl.Document
import CoroRpc.Lib.Scan

namespace CoroRpc.Idl

open Scan

def blank (c : Char) : Bool := " \t\r\n".toList.contains c

def trim (s : Text) : Text := Scan.trim blank s

def parseNamespace (line : Text) : Text := trim (line.drop "namespace".length)

def scalarNames : List (Text × FieldType) :=
  [("int8".toList, .int8), ("int16".toList, .int16), ("int32".toList, .int32), ("int64".toList, .int64),
    ("uint8".toList, .uint8), ("uint16".toList, .uint16), ("uint32".toList, .uint32), ("uint64".toList, .uint64),
    ("float".toList, .float), ("double".toList, .double), ("string".toList, .string), ("bool".toList, .bool)]

def parseType (typeStr : Text) : FieldType :=
  match scalarNames.lookup typeStr with
  | some type => type
  | none =>
      if "vector".toList.isPrefixOf typeStr then .vector
      else if "map".toList.isPrefixOf typeStr then .map
      else .custom

def parseField (line : Text) : Option Field :=
  match find ' ' line with
  | none => none
  | some spacePos =>
      let typeStr := trim (line.take spacePos)
      let nameStr := trim (line.drop spacePos)
      some
        { name := if nameStr.getLast? = some ';' then nameStr.dropLast else nameStr
          type := parseType typeStr
          typeName := typeStr }

def parseParam (piece : Text) : Option MethodParam :=
  let param := trim piece
  match find ' ' param with
  | none => none
  | some space =>
      some
        { name := trim (param.drop space)
          type := parseType (trim (param.take space))
          typeName := trim (param.take space) }

def parseMethod (line : Text) : Option MethodDef :=
  match find '(' line, find ')' line with
  | some parenOpen, some parenClose =>
      let beforeParen := trim (line.take parenOpen)
      match findLast ' ' beforeParen with
      | none => none
      | some lastSpace =>
          let rest := line.drop (parenOpen + 1)
          -- with `)` before `(` the count wraps around, and `substr` goes on to the end of the line;
          -- an empty text has no pieces, so that the test for it changes nothing
          let paramsStr := if parenOpen < parenClose then rest.take (parenClose - parenOpen - 1) else rest
          some
            { name := trim (beforeParen.drop lastSpace)
              params := (getlines ',' paramsStr).filterMap parseParam
              returnType :=
                { type := parseType (trim (beforeParen.take lastSpace))
                  typeName := trim (beforeParen.take lastSpace) } }
  | _, _ => none

def skipped (line : Text) : Bool := line.isEmpty || line.head? = some '#'

/-- What the source compares a line with to see the end of a block: a brace between two quotes. -/
def closing : Text := "\"\x7d\"".toList

def parseBody {α : Type} (item : Text → Option α) : List Text → List α → List α × List Text
  | [], items => (items, [])
  | next :: stream, items =>
      let line := trim next
      if line = closing then (items, stream)
      else if skipped line then parseBody item stream items
      else
        match item line with
        | none => parseBody item stream items
        | some i => parseBody item stream (items ++ [i])

def blockName (keyword : String) (firstLine : Text) (bracePos : Nat) : Text :=
  trim ((firstLine.drop keyword.length).take (bracePos - keyword.length))

def parseStruct (stream : List Text) (firstLine : Text) : Option StructDef × List Text :=
  match find '\x7b' firstLine with
  | none => (none, stream)
  | some bracePos =>
      let body := parseBody parseField stream []
      (some { name := blockName "struct" firstLine bracePos, fields := body.1 }, body.2)

def parseService (stream : List Text) (firstLine : Text) : Option ServiceDef × List Text :=
  match find '\x7b' firstLine with
  | none => (none, stream)
  | some bracePos =>
      let body := parseBody parseMethod stream []
      (some { name := blockName "service" firstLine bracePos, methods := body.1 }, body.2)

theorem parseBody_length_le {α : Type} (item : Text → Option α) (stream : List Text) (items : List α) :
    (parseBody item stream items).2.length ≤ stream.length := by
  induction stream generalizing items with
  | nil => exact le_rfl
  | cons next stream ih =>
      rw [parseBody, List.length_cons]
      split
      · exact Nat.le_succ _
      · split
        · exact (ih items).trans (Nat.le_succ _)
        · split
          · exact (ih items).trans (Nat.le_succ _)
          · exact (ih _).trans (Nat.le_succ _)

theorem parseStruct_length_le (stream : List Text) (firstLine : Text) :
    (parseStruct stream firstLine).2.length ≤ stream.length := by
  rw [parseStruct]
  split
  · exact le_rfl
  · exact parseBody_length_le parseField stream []

theorem parseService_length_le (stream : List Text) (firstLine : Text) :
    (parseService stream firstLine).2.length ≤ stream.length := by
  rw [parseService]
  split
  · exact le_rfl
  · exact parseBody_length_le parseMethod stream []

def parseLoop : List Text → IDLDocument → IDLDocument
  | [], doc => doc
  | next :: stream, doc =>
      let line := trim next
      if skipped line then parseLoop stream doc
      else if "namespace".toList.isPrefixOf line then
        parseLoop stream { doc with namespaceName := parseNamespace line }
      else if "struct".toList.isPrefixOf line then
        let s := parseStruct stream line
        parseLoop s.2 { doc with structs := doc.structs ++ s.1.toList }
      else if "service".toList.isPrefixOf line then
        let s := parseService stream line
        parseLoop s.2 { doc with services := doc.services ++ s.1.toList }
      else parseLoop stream doc
termination_by stream => stream.length
decreasing_by
  all_goals simp only [List.length_cons]
  · exact Nat.lt_succ_self _
  · exact Nat.lt_succ_self _
  · exact Nat.lt_succ_of_le (parseStruct_length_le stream _)
  · exact Nat.lt_succ_of_le (parseService_length_le stream _)
  · exact Nat.lt_succ_self _

/-- The stream is kept as the lines that are still to be read. -/
def parse (content : Text) : Option IDLDocument := some (parseLoop (getlines '\n' content) {})

end CoroRpc.Idl
