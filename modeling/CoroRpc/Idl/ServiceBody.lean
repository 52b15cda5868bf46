import CoroRpc.Idl.Recovery

namespace CoroRpc.Idl

open Scan

structure Token where
  text : Text
  ne_nil : text ≠ []
  chars : text.all identChar

structure ParamDecl where
  type : Token
  name : Token

structure MethodDecl where
  returnType : Token
  name : Token
  params : List ParamDecl

section Meaning

def ParamDecl.read (p : ParamDecl) : MethodParam := ⟨p.name.text, parseType p.type.text, p.type.text⟩

def MethodDecl.read (m : MethodDecl) : MethodDef where
  name := m.name.text
  params := m.params.map ParamDecl.read
  returnType := { type := parseType m.returnType.text, typeName := m.returnType.text }

end Meaning

section Spelling

def spaces (n : Nat) : Text := List.replicate n ' '

def Padding (pad : Text) : Prop := pad.all fun c => c = ' ' || c = '\t' || c = '\r'

instance (pad : Text) : Decidable (Padding pad) := inferInstanceAs (Decidable (_ = true))

def ParamDecl.Spelled (p : ParamDecl) (text : Text) : Prop :=
  ∃ before gap after,
    text = spaces before ++ ((p.type.text ++ (spaces (gap + 1) ++ p.name.text)) ++ spaces after)

inductive ParamsSpelled : List ParamDecl → Text → Prop
  | none (n : Nat) : ParamsSpelled [] (spaces n)
  | last {p : ParamDecl} {text : Text} (h : p.Spelled text) : ParamsSpelled [p] text
  | cons {p q : ParamDecl} {ps : List ParamDecl} {text rest : Text} (h : p.Spelled text)
      (hrest : ParamsSpelled (q :: ps) rest) : ParamsSpelled (p :: q :: ps) (text ++ ',' :: rest)

def MethodDecl.Spelled (m : MethodDecl) (text : Text) : Prop :=
  ∃ gap before params after, ParamsSpelled m.params params ∧
    text = m.returnType.text ++ (spaces (gap + 1) ++ (m.name.text ++ (spaces before ++
      '(' :: (params ++ ')' :: (spaces after ++ [';'])))))

inductive Other : Text → Prop
  | blank (pad : Text) (h : Padding pad) : Other pad
  | comment (pad text : Text) (h : Padding pad) (ht : '\n' ∉ text) : Other (pad ++ '#' :: text)
  | brace (pad pad' : Text) (h : Padding pad) (h' : Padding pad') : Other (pad ++ (brace ++ pad'))

inductive Body : List MethodDecl → List Text → Prop
  | nil : Body [] []
  | other {methods : List MethodDecl} {file : List Text} {line : Text} (h : Other line) (hb : Body methods file) :
      Body methods (line :: file)
  | method {methods : List MethodDecl} {file : List Text} {m : MethodDecl} {text : Text} (pad pad' : Text)
      (h : m.Spelled text) (hp : Padding pad) (hp' : Padding pad') (hb : Body methods file) :
      Body (m :: methods) ((pad ++ (text ++ pad')) :: file)

def Header (name : Token) (line : Text) : Prop :=
  ∃ gap after, line = "service".toList ++ ((spaces (gap + 1) ++ (name.text ++ spaces after)) ++ ['\x7b'])

end Spelling

section Spaces

theorem mem_spaces {n : Nat} {c : Char} (h : c ∈ spaces n) : c = ' ' := List.eq_of_mem_replicate h

theorem blank_spaces (n : Nat) : ∀ c ∈ spaces n, blank c := by
  intro c hc
  rw [mem_spaces hc]
  rfl

theorem not_mem_spaces {c : Char} (h : c ≠ ' ') (n : Nat) : c ∉ spaces n := fun hc => h (mem_spaces hc)

theorem spaces_succ (n : Nat) : spaces (n + 1) = ' ' :: spaces n := rfl

theorem spaces_concat (n : Nat) : spaces (n + 1) = spaces n ++ [' '] := List.replicate_succ'

theorem trim_spaces {s : Text} (hs : Tight blank s) (before after : Nat) :
    trim (spaces before ++ (s ++ spaces after)) = s :=
  trim_append (blank_spaces before) hs (spaces after) (blank_spaces after)

theorem Padding.mem {pad : Text} (h : Padding pad) {c : Char} (hc : c ∈ pad) : c = ' ' ∨ c = '\t' ∨ c = '\r' := by
  have hall := List.all_eq_true.mp h c hc
  simpa [or_assoc] using hall

theorem Padding.blank {pad : Text} (h : Padding pad) : ∀ c ∈ pad, blank c := by
  intro c hc
  rcases h.mem hc with rfl | rfl | rfl <;> rfl

theorem Padding.not_newline {pad : Text} (h : Padding pad) : '\n' ∉ pad := by
  intro hc
  rcases h.mem hc with heq | heq | heq <;> exact absurd heq (by decide)

theorem Token.not_mem (t : Token) {c : Char} (h : identChar c = false) : c ∉ t.text :=
  fun hc => Bool.false_ne_true (h.symm.trans (List.all_eq_true.mp t.chars c hc))

theorem Token.tight (t : Token) : Tight blank t.text := tight_of_word t.chars

end Spaces

section Params

theorem ParamDecl.Spelled.not_mem {p : ParamDecl} {text : Text} (h : p.Spelled text) {c : Char}
    (hc : identChar c = false) (hspace : c ≠ ' ') : c ∉ text := by
  obtain ⟨before, gap, after, rfl⟩ := h
  simp only [List.mem_append, not_or]
  exact ⟨not_mem_spaces hspace _, ⟨p.type.not_mem hc, not_mem_spaces hspace _, p.name.not_mem hc⟩,
    not_mem_spaces hspace _⟩

theorem ParamDecl.Spelled.ne_nil {p : ParamDecl} {text : Text} (h : p.Spelled text) : text ≠ [] := by
  obtain ⟨before, gap, after, rfl⟩ := h
  simp [p.type.ne_nil]

theorem ParamsSpelled.not_mem {ps : List ParamDecl} {text : Text} (h : ParamsSpelled ps text) {c : Char}
    (hc : identChar c = false) (hspace : c ≠ ' ') (hcomma : c ≠ ',') : c ∉ text := by
  induction h with
  | none n => exact not_mem_spaces hspace n
  | last h => exact h.not_mem hc hspace
  | cons h _ ih =>
      simp only [List.mem_append, List.mem_cons, not_or]
      exact ⟨h.not_mem hc hspace, hcomma, ih⟩

theorem parseParam_spelled {p : ParamDecl} {text : Text} (h : p.Spelled text) : parseParam text = some p.read := by
  obtain ⟨before, gap, after, rfl⟩ := h
  have htight : Tight blank (p.type.text ++ (spaces (gap + 1) ++ p.name.text)) :=
    p.type.tight.append p.name.tight p.type.ne_nil p.name.ne_nil _
  rw [parseParam, trim_spaces htight, spaces_succ, List.cons_append, find_append (p.type.not_mem rfl)]
  have hname : trim (' ' :: (spaces gap ++ p.name.text)) = p.name.text := by
    rw [← List.cons_append, ← spaces_succ]
    exact trim_pad (blank_spaces (gap + 1)) p.name.tight
  simp only [List.take_left, List.drop_left, trim_tight p.type.tight, hname]
  rfl

theorem parseParam_spaces (n : Nat) : parseParam (spaces n) = none := by
  have htrim : trim (spaces n) = [] := by
    have h := trim_spaces (s := []) (Tight.of_any rfl) n 0
    rwa [List.nil_append, spaces, spaces, List.replicate_zero, List.append_nil] at h
  rw [parseParam, htrim]
  rfl

theorem parseParams_spelled {ps : List ParamDecl} {text : Text} (h : ParamsSpelled ps text) :
    (getlines ',' text).filterMap parseParam = ps.map ParamDecl.read := by
  induction h with
  | none n =>
      cases n with
      | zero => rfl
      | succ n =>
          have hcomma : ',' ∉ spaces (n + 1) := not_mem_spaces (by decide) (n + 1)
          rw [getlines_last hcomma (List.cons_ne_nil _ _), List.filterMap_cons_none (parseParam_spaces _)]
          rfl
  | last h =>
      rw [getlines_last (h.not_mem rfl (by decide)) h.ne_nil, List.filterMap_cons_some (parseParam_spelled h)]
      rfl
  | cons h _ ih =>
      rw [getlines_append (h.not_mem rfl (by decide)), List.filterMap_cons_some (parseParam_spelled h), ih]
      rfl

end Params

section Methods

variable {m : MethodDecl} {text : Text}

theorem MethodDecl.Spelled.plain (h : m.Spelled text) : Plain text := by
  obtain ⟨gap, before, params, after, hparams, rfl⟩ := h
  have hnl (n : Nat) : '\n' ∉ spaces n := not_mem_spaces (by decide) n
  have hmid : '\n' ∉ spaces (gap + 1) ++ (m.name.text ++ (spaces before ++
      '(' :: (params ++ ')' :: spaces after))) := by
    have hword := m.name.not_mem (c := '\n') rfl
    have hps := hparams.not_mem (c := '\n') rfl (by decide) (by decide)
    simp [hnl, hword, hps]
  have h := Plain.of_word m.returnType.chars m.returnType.ne_nil [';'] (Tight.of_any rfl) (List.cons_ne_nil _ _)
    hmid (by decide)
  simpa only [List.append_assoc, List.cons_append] using h

theorem parseMethod_spelled (h : m.Spelled text) : parseMethod text = some m.read := by
  obtain ⟨gap, before, params, after, hparams, rfl⟩ := h
  have hnot {c : Char} (hc : identChar c = false) (hspace : c ≠ ' ') :
      c ∉ (m.returnType.text ++ (spaces (gap + 1) ++ m.name.text)) ++ spaces before := by
    simp [m.returnType.not_mem hc, m.name.not_mem hc, not_mem_spaces hspace]
  have htight : Tight blank (m.returnType.text ++ (spaces (gap + 1) ++ m.name.text)) :=
    m.returnType.tight.append m.name.tight m.returnType.ne_nil m.name.ne_nil _
  have htrim : trim ((m.returnType.text ++ (spaces (gap + 1) ++ m.name.text)) ++ spaces before) =
      (m.returnType.text ++ spaces gap) ++ ' ' :: m.name.text := by
    have h := trim_spaces htight 0 before
    rw [spaces, List.replicate_zero, List.nil_append] at h
    rw [h, spaces_concat]
    simp only [List.append_assoc, List.cons_append, List.nil_append]
  have hline : m.returnType.text ++ (spaces (gap + 1) ++ (m.name.text ++ (spaces before ++
        '(' :: (params ++ ')' :: (spaces after ++ [';']))))) =
      ((m.returnType.text ++ (spaces (gap + 1) ++ m.name.text)) ++ spaces before) ++
        '(' :: (params ++ ')' :: (spaces after ++ [';'])) := by
    simp only [List.append_assoc]
  have htype : trim (m.returnType.text ++ spaces gap) = m.returnType.text := trim_spaces m.returnType.tight 0 gap
  rw [hline, parseMethod_parens (hnot rfl (by decide)) (hnot rfl (by decide))
    (hparams.not_mem rfl (by decide) (by decide)), htrim, findLast_append (m.name.not_mem rfl), Option.map_some]
  simp only [List.take_left, List.drop_left, htype, trim_space m.name.tight, parseParams_spelled hparams]
  rfl

end Methods

section Lines

theorem trim_padded {pad pad' s : Text} (h : Padding pad) (h' : Padding pad') (hs : Tight blank s) :
    trim (pad ++ (s ++ pad')) = s :=
  trim_append h.blank hs pad' h'.blank

theorem Other.not_newline {line : Text} (h : Other line) : '\n' ∉ line := by
  cases h with
  | blank pad h => exact h.not_newline
  | comment pad text h ht => simp [h.not_newline, ht]
  | brace pad pad' h h' => simp [h.not_newline, h'.not_newline, Idl.brace]

theorem parseBody_other {line : Text} (h : Other line) (stream : List Text) (items : List MethodDef) :
    parseBody parseMethod (line :: stream) items = parseBody parseMethod stream items := by
  have hskip {l : Text} (hl : skipped l = true) (htrim : trim line = l) :
      parseBody parseMethod (line :: stream) items = parseBody parseMethod stream items := by
    have hne : l ≠ closing := by
      rintro rfl
      exact absurd hl (by decide)
    rw [parseBody, htrim]
    simp only [if_neg hne, hl, if_true]
  cases h with
  | blank pad h =>
      apply hskip (l := []) rfl
      have hnil : Padding [] := rfl
      have htrim := trim_padded h hnil (Tight.of_any (s := []) rfl)
      rwa [List.append_nil, List.append_nil] at htrim
  | comment pad text h ht =>
      apply hskip _ rfl
      have hhead := head?_trim h.blank (show Idl.blank '#' = false from rfl) text
      simp [skipped, Idl.trim, hhead]
  | brace pad pad' h h' =>
      rw [parseBody, trim_padded h h' plain_brace.tight]
      simp only [if_neg plain_brace.ne_closing, plain_brace.not_skipped, Bool.false_eq_true, if_false,
        parseMethod_brace]

theorem parseBody_method {m : MethodDecl} {text pad pad' : Text} (h : m.Spelled text) (hp : Padding pad)
    (hp' : Padding pad') (stream : List Text) (items : List MethodDef) :
    parseBody parseMethod ((pad ++ (text ++ pad')) :: stream) items =
      parseBody parseMethod stream (items ++ [m.read]) := by
  rw [parseBody, trim_padded hp hp' h.plain.tight]
  simp only [if_neg h.plain.ne_closing, h.plain.not_skipped, Bool.false_eq_true, if_false, parseMethod_spelled h]

theorem parseBody_body {methods : List MethodDecl} {file : List Text} (h : Body methods file)
    (items : List MethodDef) :
    parseBody parseMethod file items = (items ++ methods.map MethodDecl.read, []) := by
  induction h generalizing items with
  | nil => simp [parseBody]
  | other h _ ih => rw [parseBody_other h, ih]
  | method pad pad' h hp hp' _ ih =>
      rw [parseBody_method h hp hp', ih, List.map_cons, List.append_assoc, List.singleton_append]

theorem Body.not_newline {methods : List MethodDecl} {file : List Text} (h : Body methods file) :
    ∀ line ∈ file, '\n' ∉ line := by
  induction h with
  | nil => simp
  | other h _ ih => exact List.forall_mem_cons.mpr ⟨h.not_newline, ih⟩
  | method pad pad' h hp hp' _ ih =>
      refine List.forall_mem_cons.mpr ⟨?_, ih⟩
      simp only [List.mem_append, not_or]
      exact ⟨hp.not_newline, h.plain.newline, hp'.not_newline⟩

/-- `getline` does not give an empty line at the end of the input. -/
theorem Body.of_concat_nil {methods : List MethodDecl} {file : List Text} (h : Body methods (file ++ [[]])) :
    Body methods file := by
  generalize hall : file ++ [[]] = all at h
  induction h generalizing file with
  | nil => exact absurd hall (by simp)
  | other hline hb ih =>
      cases file with
      | nil =>
          obtain ⟨-, rfl⟩ := List.cons.inj hall
          exact hb
      | cons first file =>
          obtain ⟨rfl, hrest⟩ := List.cons.inj hall
          exact .other hline (ih hrest)
  | method pad pad' hline hp hp' hb ih =>
      cases file with
      | nil =>
          obtain ⟨hnil, -⟩ := List.cons.inj hall
          have htext := (List.append_eq_nil_iff.mp (List.append_eq_nil_iff.mp hnil.symm).2).1
          exact absurd htext hline.plain.ne_nil
      | cons first file =>
          obtain ⟨rfl, hrest⟩ := List.cons.inj hall
          exact .method pad pad' hline hp hp' (ih hrest)

theorem Body.stream {methods : List MethodDecl} {file : List Text} (h : Body methods file) :
    Body methods (getlines '\n' (['\n'].intercalate file)) := by
  rcases getlines_intercalate h.not_newline with heq | heq
  · rwa [heq]
  · apply Body.of_concat_nil
    rwa [heq]

theorem Header.name_read {name : Token} {line : Text} (h : Header name line) :
    ∃ bracePos, find '\x7b' line = some bracePos ∧ blockName "service" line bracePos = name.text := by
  obtain ⟨gap, after, rfl⟩ := h
  have hnot : '\x7b' ∉ "service".toList ++ (spaces (gap + 1) ++ (name.text ++ spaces after)) := by
    have hkey : '\x7b' ∉ "service".toList := by decide
    have hspace (n : Nat) : '\x7b' ∉ spaces n := not_mem_spaces (by decide) n
    have hname := name.not_mem (c := '\x7b') rfl
    simp only [List.mem_append, not_or]
    exact ⟨hkey, hspace _, hname, hspace _⟩
  refine ⟨_, by rw [← List.append_assoc, find_append hnot], ?_⟩
  have hlength : "service".length = "service".toList.length := rfl
  rw [blockName, hlength, List.drop_left, List.length_append, Nat.add_sub_cancel_left, List.take_left]
  exact trim_spaces name.tight (gap + 1) after

end Lines

/-- A service whose body reaches to the end of the input is read with exactly its methods, in their order,
however the lines are spaced and whatever blank lines, comments and closing braces stand between them. -/
theorem parse_service_methods {name : Token} {firstLine : Text} {methods : List MethodDecl} {file : List Text}
    (hfirst : Header name firstLine) (h : Body methods file) :
    parseService (getlines '\n' (['\n'].intercalate file)) firstLine =
      (some { name := name.text, methods := methods.map MethodDecl.read }, []) := by
  obtain ⟨bracePos, hfind, hname⟩ := hfirst.name_read
  rw [parseService, hfind]
  simp only [hname, parseBody_body h.stream, List.nil_append]

def addMethod : MethodDecl where
  returnType := ⟨"int32".toList, by decide, rfl⟩
  name := ⟨"add".toList, by decide, rfl⟩
  params :=
    [⟨⟨"vector2d".toList, by decide, rfl⟩, ⟨"a".toList, by decide, rfl⟩⟩,
      ⟨⟨"int32".toList, by decide, rfl⟩, ⟨"bias".toList, by decide, rfl⟩⟩]

def addLine : Text := "int32  add (vector2d a , int32  bias);".toList

theorem spelled_addLine : addMethod.Spelled addLine :=
  ⟨1, 1, "vector2d a , int32  bias".toList, 0, .cons ⟨0, 0, 1, rfl⟩ (.last ⟨1, 1, 0, rfl⟩), rfl⟩

/-- A method after a comment and before two closing braces. -/
theorem parse_service_methods_add :
    parseService (getlines '\n' ("# adds\n\t".toList ++ addLine ++ "\n  \x7d\n\x7d\n".toList))
        "service Calculator\x7b".toList =
      (some { name := "Calculator".toList, methods := [addMethod.read] }, []) := by
  have hfirst : Header ⟨"Calculator".toList, by decide, rfl⟩ "service Calculator\x7b".toList := ⟨0, 0, rfl⟩
  exact parse_service_methods hfirst
    (.other (.comment [] " adds".toList rfl (by decide))
      (.method ['\t'] [] spelled_addLine rfl rfl
        (.other (.brace [' ', ' '] [] rfl rfl)
          (.other (.brace [] [] rfl rfl) (.other (.blank [] rfl) .nil)))))

end CoroRpc.Idl
