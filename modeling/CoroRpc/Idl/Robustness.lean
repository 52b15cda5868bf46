import CoroRpc.Idl.Parser
import CoroRpc.Lib.Substr

namespace CoroRpc.Idl

open Scan

structure StdString where
  chars : Text
  short : Short chars

-- The parser with its indices as they are computed, modulo `2 ^ 64`, and with every `substr` and every
-- access to a character checked.
namespace Checked

def trim (s : Text) : Except Fault Text :=
  let start := index (findFirstNotOf blank s)
  let last := index (findLastNotOf blank s)
  if start = npos then .ok [] else substr s start (last - start + 1)

def parseNamespace (line : Text) : Except Fault Text := do
  let pos := index (findText "namespace".toList line)
  trim (← substr line (pos + 9) npos)

def skipped (line : Text) : Except Fault Bool :=
  if line.isEmpty then .ok true else do return (← charAt line 0) = '#'

def fieldName (nameStr : Text) : Except Fault Text :=
  if nameStr.isEmpty then .ok nameStr
  else do
    if (← back nameStr) = ';' then popBack nameStr else return nameStr

def parseField (line : Text) : Except Fault (Option Field) := do
  let spacePos := index (find ' ' line)
  if spacePos = npos then return none
  let typeStr ← trim (← substr line 0 spacePos)
  let nameStr ← trim (← substr line spacePos npos)
  return some { name := ← fieldName nameStr, type := parseType typeStr, typeName := typeStr }

def parseParam (piece : Text) : Except Fault (Option MethodParam) := do
  let param ← trim piece
  let space := index (find ' ' param)
  if space = npos then return none
  return some
    { name := ← trim (← substr param space npos)
      type := parseType (← trim (← substr param 0 space))
      typeName := ← trim (← substr param 0 space) }

def parseParams : List Text → Except Fault (List MethodParam)
  | [] => .ok []
  | piece :: pieces => do
      let p ← parseParam piece
      return p.toList ++ (← parseParams pieces)

def methodParams (paramsStr : Text) : Except Fault (List MethodParam) :=
  if paramsStr.isEmpty then .ok [] else parseParams (getlines ',' paramsStr)

def parseMethod (line : Text) : Except Fault (Option MethodDef) := do
  let parenOpen := index (find '(' line)
  let parenClose := index (find ')' line)
  if parenOpen = npos ∨ parenClose = npos then return none
  let beforeParen ← trim (← substr line 0 parenOpen)
  let lastSpace := index (findLast ' ' beforeParen)
  if lastSpace = npos then return none
  let returnType ← trim (← substr beforeParen 0 lastSpace)
  let name ← trim (← substr beforeParen lastSpace npos)
  let paramsStr ← substr line (parenOpen + 1) (parenClose - parenOpen - 1)
  let params ← methodParams paramsStr
  return some { name, params, returnType := { type := parseType returnType, typeName := returnType } }

def parseBody {α : Type} (item : Text → Except Fault (Option α)) :
    List Text → List α → Except Fault (List α × List Text)
  | [], items => .ok (items, [])
  | next :: stream, items => do
      let line ← trim next
      if line = closing then return (items, stream)
      if ← skipped line then parseBody item stream items
      else
        match ← item line with
        | none => parseBody item stream items
        | some i => parseBody item stream (items ++ [i])

def blockName (keyword : String) (firstLine : Text) (bracePos : UInt64) : Except Fault Text := do
  let pos := index (findText keyword.toList firstLine)
  let size := UInt64.ofNat keyword.length
  trim (← substr firstLine (pos + size) (bracePos - pos - size))

def parseStruct (stream : List Text) (firstLine : Text) : Except Fault (Option StructDef × List Text) := do
  let bracePos := index (find '\x7b' firstLine)
  if bracePos = npos then return (none, stream)
  let name ← blockName "struct" firstLine bracePos
  let body ← parseBody parseField stream []
  return (some { name, fields := body.1 }, body.2)

def parseService (stream : List Text) (firstLine : Text) : Except Fault (Option ServiceDef × List Text) := do
  let bracePos := index (find '\x7b' firstLine)
  if bracePos = npos then return (none, stream)
  let name ← blockName "service" firstLine bracePos
  let body ← parseBody parseMethod stream []
  return (some { name, methods := body.1 }, body.2)

def parseLoop : Nat → List Text → IDLDocument → Except Fault IDLDocument
  | _, [], doc => .ok doc
  | 0, _ :: _, _ => .error .unfinished
  | rounds + 1, next :: stream, doc => do
      let line ← trim next
      if ← skipped line then parseLoop rounds stream doc
      else if "namespace".toList.isPrefixOf line then
        parseLoop rounds stream { doc with namespaceName := ← parseNamespace line }
      else if "struct".toList.isPrefixOf line then
        let s ← parseStruct stream line
        parseLoop rounds s.2 { doc with structs := doc.structs ++ s.1.toList }
      else if "service".toList.isPrefixOf line then
        let s ← parseService stream line
        parseLoop rounds s.2 { doc with services := doc.services ++ s.1.toList }
      else parseLoop rounds stream doc

def parse (content : Text) : Except Fault (Option IDLDocument) := do
  let lines := getlines '\n' content
  return some (← parseLoop lines.length lines {})

section Lines

variable {s line : Text}

theorem trim_ok (hs : Short s) : trim s = .ok (Idl.trim s) := by
  rw [trim, Idl.trim]
  cases hfirst : findFirstNotOf blank s with
  | none => rw [trim_of_findFirst_none hfirst, index, if_pos rfl]
  | some i =>
      obtain ⟨j, hlast, hij, hj, htrim⟩ := findLast_of_findFirst hfirst
      have hshort : j < 2 ^ 63 := hj.trans hs
      have hcount : (index (some j) - index (some i) + 1).toNat = j - i + 1 := by
        have hone : (1 : UInt64).toNat = 1 := rfl
        rw [UInt64.toNat_add, toNat_index_sub hij hshort, hone]
        omega
      rw [if_neg (index_ne_npos (Nat.lt_of_le_of_lt hij hshort)), hlast, substr_index hs (by omega), hcount, htrim]

theorem short_trim (hs : Short s) : Short (Idl.trim s) := hs.mono (length_trim_le blank s)

theorem short_take (hs : Short s) (n : Nat) : Short (s.take n) := hs.mono (List.length_take_le' n s)

theorem short_drop (hs : Short s) (n : Nat) : Short (s.drop n) := by
  apply hs.mono
  rw [List.length_drop]
  exact Nat.sub_le _ _

theorem skipped_ok (line : Text) : skipped line = .ok (Idl.skipped line) := by
  cases line with
  | nil => rfl
  | cons c line => simp [skipped, charAt, Idl.skipped]

theorem substr_before (hs : Short s) {i : Nat} (hi : i < s.length) :
    substr s 0 (index (some i)) = .ok (s.take i) := by
  have hzero : (0 : UInt64) = index (some 0) := rfl
  rw [hzero, substr_index hs (Nat.zero_le _), toNat_index (hi.trans hs), List.drop_zero]

theorem substr_after (hs : Short s) {i : Nat} (hi : i ≤ s.length) :
    substr s (index (some i)) npos = .ok (s.drop i) :=
  substr_rest hs hi (by rw [toNat_npos]; omega)

theorem parseNamespace_ok (hs : Short line) (h : "namespace".toList <+: line) :
    parseNamespace line = .ok (Idl.parseNamespace line) := by
  have hplace : (index (some 0) + 9 : UInt64) = index (some 9) := rfl
  have hlength : 9 ≤ line.length := h.length_le
  rw [parseNamespace, findText_prefix h]
  simp only [hplace, substr_after hs hlength, ok_bind]
  exact trim_ok (short_drop hs 9)

theorem fieldName_ok (nameStr : Text) :
    fieldName nameStr = .ok (if nameStr.getLast? = some ';' then nameStr.dropLast else nameStr) := by
  rcases List.eq_nil_or_concat nameStr with rfl | ⟨front, last, rfl⟩
  · rfl
  · have hne : front ++ [last] ≠ [] := by simp
    simp only [List.concat_eq_append, fieldName, back, popBack, List.getLast?_concat, ok_bind, List.isEmpty_iff,
      if_neg hne, Option.some.injEq]
    split <;> rfl

theorem parseField_ok (hs : Short line) : parseField line = .ok (Idl.parseField line) := by
  rw [parseField, Idl.parseField]
  cases hspace : find ' ' line with
  | none => rfl
  | some i =>
      have hi := find_lt hspace
      simp only [if_neg (index_ne_npos (hi.trans hs)), substr_before hs hi, substr_after hs hi.le, ok_bind, pure_ok,
        trim_ok (short_take hs i), trim_ok (short_drop hs i), fieldName_ok]

theorem parseParam_ok (hs : Short s) : parseParam s = .ok (Idl.parseParam s) := by
  rw [parseParam, Idl.parseParam, trim_ok hs, ok_bind]
  have hshort := short_trim hs
  cases hspace : find ' ' (Idl.trim s) with
  | none => rfl
  | some i =>
      have hi := find_lt hspace
      simp only [if_neg (index_ne_npos (hi.trans hshort)), substr_before hshort hi, substr_after hshort hi.le, ok_bind,
        pure_ok, trim_ok (short_take hshort i), trim_ok (short_drop hshort i)]

theorem parseParams_ok {pieces : List Text} (h : ∀ piece ∈ pieces, Short piece) :
    parseParams pieces = .ok (pieces.filterMap Idl.parseParam) := by
  induction pieces with
  | nil => rfl
  | cons piece pieces ih =>
      obtain ⟨hpiece, hrest⟩ := List.forall_mem_cons.mp h
      rw [parseParams, parseParam_ok hpiece, ok_bind, ih hrest]
      cases hparam : Idl.parseParam piece with
      | none => rw [List.filterMap_cons_none hparam]; rfl
      | some p => rw [List.filterMap_cons_some hparam]; rfl

theorem substr_params (hs : Short line) {i j : Nat} (hi : find '(' line = some i) (hj : find ')' line = some j) :
    substr line (index (some i) + 1) (index (some j) - index (some i) - 1) =
      .ok (if i < j then (line.drop (i + 1)).take (j - i - 1) else line.drop (i + 1)) := by
  have hilt := find_lt hi
  have hjlt := find_lt hj
  have hplace : index (some i) + 1 = index (some (i + 1)) := index_add i 1
  rw [hplace]
  by_cases hij : i < j
  · have hone : (1 : UInt64) = index (some 1) := rfl
    have hcount : (index (some j) - index (some i) - 1).toNat = j - i - 1 := by
      rw [UInt64.toNat_sub, toNat_index_sub hij.le (hjlt.trans hs), hone, toNat_index (by decide)]
      have hlt : j < 2 ^ 63 := hjlt.trans hs
      omega
    rw [if_pos hij, substr_index hs hilt, hcount]
  · rw [if_neg hij, substr_rest hs hilt (toNat_index_wrap (Nat.not_lt.mp hij) (hilt.trans hs))]

theorem methodParams_ok (hs : Short s) :
    methodParams s = .ok ((getlines ',' s).filterMap Idl.parseParam) := by
  have hshort : ∀ piece ∈ getlines ',' s, Short piece := fun _ hpiece => hs.mono (length_getlines_le hpiece)
  cases s with
  | nil => rfl
  | cons c s => exact parseParams_ok hshort

theorem parseMethod_ok (hs : Short line) : parseMethod line = .ok (Idl.parseMethod line) := by
  rw [parseMethod, Idl.parseMethod]
  cases hopen : find '(' line with
  | none => rfl
  | some i =>
      cases hclose : find ')' line with
      | none => simp [index]
      | some j =>
          have hi := find_lt hopen
          have hshort := short_take hs i
          have hne : ¬(index (some i) = npos ∨ index (some j) = npos) :=
            not_or.mpr ⟨index_ne_npos (hi.trans hs), index_ne_npos ((find_lt hclose).trans hs)⟩
          simp only [if_neg hne, substr_before hs hi, ok_bind, trim_ok hshort]
          cases hlast : findLast ' ' (Idl.trim (line.take i)) with
          | none => rfl
          | some k =>
              have hk := findLast_lt hlast
              have hbefore := short_trim hshort
              simp only [if_neg (index_ne_npos (hk.trans hbefore)), substr_before hbefore hk,
                substr_after hbefore hk.le, ok_bind, trim_ok (short_take hbefore k), trim_ok (short_drop hbefore k),
                substr_params hs hopen hclose]
              have hparams : Short
                  (if i < j then (line.drop (i + 1)).take (j - i - 1) else line.drop (i + 1)) := by
                split
                · exact short_take (short_drop hs _) _
                · exact short_drop hs _
              rw [methodParams_ok hparams, ok_bind, pure_ok]

end Lines

section Blocks

variable {stream : List Text} {firstLine : Text}

theorem parseBody_ok {α : Type} {item : Text → Except Fault (Option α)} {item' : Text → Option α}
    (hitem : ∀ line, Short line → item line = .ok (item' line)) (hs : ∀ line ∈ stream, Short line)
    (items : List α) : parseBody item stream items = .ok (Idl.parseBody item' stream items) := by
  induction stream generalizing items with
  | nil => rfl
  | cons next stream ih =>
      obtain ⟨hnext, hrest⟩ := List.forall_mem_cons.mp hs
      rw [parseBody, Idl.parseBody, trim_ok hnext]
      simp only [ok_bind, skipped_ok, hitem _ (short_trim hnext), ih hrest]
      split
      · rfl
      · split
        · rfl
        · cases item' (Idl.trim next) <;> rfl

/-- The name starts after the keyword, and the brace does not come before that. -/
theorem blockName_ok {keyword : String} (hs : Short firstLine) (hkey : keyword.toList <+: firstLine)
    (hbrace : '\x7b' ∉ keyword.toList) {i : Nat} (hi : find '\x7b' firstLine = some i) :
    blockName keyword firstLine (index (some i)) = .ok (Idl.blockName keyword firstLine i) := by
  have hle : keyword.length ≤ i := by
    rw [← String.length_toList]
    exact find_prefix hkey hbrace hi
  have hilt := find_lt hi
  have hshort : i < 2 ^ 63 := hilt.trans hs
  have hplace : index (some 0) + UInt64.ofNat keyword.length = index (some keyword.length) := by
    rw [index_add, Nat.zero_add]
  have hcount : (index (some i) - index (some 0) - UInt64.ofNat keyword.length).toNat = i - keyword.length := by
    have hzero : index (some i) - index (some 0) = index (some i) := UInt64.sub_zero _
    rw [hzero]
    exact toNat_index_sub hle hshort
  rw [blockName, findText_prefix hkey, Idl.blockName]
  simp only [hplace, substr_index hs (hle.trans hilt.le), hcount, ok_bind]
  exact trim_ok (short_take (short_drop hs _) _)

theorem parseStruct_ok (hs : ∀ line ∈ stream, Short line) (hfirst : Short firstLine)
    (hkey : "struct".toList <+: firstLine) :
    parseStruct stream firstLine = .ok (Idl.parseStruct stream firstLine) := by
  rw [parseStruct, Idl.parseStruct]
  cases hbrace : find '\x7b' firstLine with
  | none => rfl
  | some i =>
      have hne := index_ne_npos ((find_lt hbrace).trans hfirst)
      simp only [if_neg hne, blockName_ok hfirst hkey (by decide) hbrace, ok_bind, pure_ok,
        parseBody_ok (fun _ h => parseField_ok h) hs]

theorem parseService_ok (hs : ∀ line ∈ stream, Short line) (hfirst : Short firstLine)
    (hkey : "service".toList <+: firstLine) :
    parseService stream firstLine = .ok (Idl.parseService stream firstLine) := by
  rw [parseService, Idl.parseService]
  cases hbrace : find '\x7b' firstLine with
  | none => rfl
  | some i =>
      have hne := index_ne_npos ((find_lt hbrace).trans hfirst)
      simp only [if_neg hne, blockName_ok hfirst hkey (by decide) hbrace, ok_bind, pure_ok,
        parseBody_ok (fun _ h => parseMethod_ok h) hs]

theorem parseBody_suffix {α : Type} (item : Text → Option α) (stream : List Text) (items : List α) :
    (Idl.parseBody item stream items).2 <:+ stream := by
  induction stream generalizing items with
  | nil => exact List.suffix_rfl
  | cons next stream ih =>
      rw [Idl.parseBody]
      split
      · exact List.suffix_cons next stream
      · split
        · exact (ih items).trans (List.suffix_cons next stream)
        · split
          · exact (ih items).trans (List.suffix_cons next stream)
          · exact (ih _).trans (List.suffix_cons next stream)

theorem parseStruct_suffix (stream : List Text) (firstLine : Text) :
    (Idl.parseStruct stream firstLine).2 <:+ stream := by
  rw [Idl.parseStruct]
  split
  · exact List.suffix_rfl
  · exact parseBody_suffix Idl.parseField stream []

theorem parseService_suffix (stream : List Text) (firstLine : Text) :
    (Idl.parseService stream firstLine).2 <:+ stream := by
  rw [Idl.parseService]
  split
  · exact List.suffix_rfl
  · exact parseBody_suffix Idl.parseMethod stream []

theorem parseLoop_ok {rounds : Nat} (hn : stream.length ≤ rounds) (hs : ∀ line ∈ stream, Short line)
    (doc : IDLDocument) : parseLoop rounds stream doc = .ok (Idl.parseLoop stream doc) := by
  induction rounds generalizing stream doc with
  | zero =>
      rw [List.length_eq_zero_iff.mp (Nat.le_zero.mp hn), Idl.parseLoop]
      rfl
  | succ rounds ih =>
      cases stream with
      | nil =>
          rw [Idl.parseLoop]
          rfl
      | cons next stream =>
          obtain ⟨hnext, hrest⟩ := List.forall_mem_cons.mp hs
          have hline := short_trim hnext
          -- what a block leaves of the stream
          have hpart {rest : List Text} (hrest' : rest <:+ stream) (doc : IDLDocument) :
              parseLoop rounds rest doc = .ok (Idl.parseLoop rest doc) := by
            apply ih (hrest'.length_le.trans (Nat.le_of_succ_le_succ hn))
            exact fun line hl => hrest line (hrest'.subset hl)
          rw [parseLoop, Idl.parseLoop, trim_ok hnext]
          simp only [ok_bind, skipped_ok, hpart List.suffix_rfl]
          split
          · rfl
          · split
            · next hkey => rw [parseNamespace_ok hline (List.isPrefixOf_iff_prefix.mp hkey), ok_bind]
            · split
              · next hkey =>
                  rw [parseStruct_ok hrest hline (List.isPrefixOf_iff_prefix.mp hkey), ok_bind,
                    hpart (parseStruct_suffix stream _)]
              · split
                · next hkey =>
                    rw [parseService_ok hrest hline (List.isPrefixOf_iff_prefix.mp hkey), ok_bind,
                      hpart (parseService_suffix stream _)]
                · rfl

end Blocks

end Checked

/-- For every content the parser ends and returns a document, and on the way no `substr` throws and no
character is read outside of its string. -/
theorem parse_no_fault (content : StdString) :
    ∃ doc, Checked.parse content.chars = .ok (some doc) ∧ parse content.chars = some doc := by
  have hshort : ∀ line ∈ getlines '\n' content.chars, Short line :=
    fun _ hline => content.short.mono (length_getlines_le hline)
  refine ⟨parseLoop (getlines '\n' content.chars) {}, ?_, rfl⟩
  rw [Checked.parse, Checked.parseLoop_ok (Nat.le_refl _) hshort]
  rfl

end CoroRpc.Idl
