import FreeToken.Server.ToolSchema
import Mathlib.Data.List.Nodup

/-!
# Names of Responses tools

`_tool_name_maps`, `_response_tool_name` and `_convert_tools` of `server/responses_api.py`: the
members of namespace tools are offered to the template under flat names, and a call is reported
under the namespace and the name it came from. A short name is kept where it is the only one, and
qualified by its namespace otherwise. Main results:

* `offeredNames_eq`: the names that are offered.
* `mapsBack_iff`: when calls find their way back.
-/

namespace FreeToken.Server.Responses

open FreeToken.Lib

/-! ## Tools -/

/-- The dict of a function. -/
structure FunctionDict where
  name : Option Text
  description : Option Json
  parameters : Option Json

/-- `fn.get("name", "")`. -/
def FunctionDict.getName (fn : FunctionDict) : Text := fn.name.getD []

/-- An entry of the `tools` of a request, by its type. -/
inductive ToolDict where
  /-- No type, or `function`; the inner dict is that under the key `function`. -/
  | functionTool (own : FunctionDict) (inner : Option FunctionDict)
  /-- The entries that are no functions are `none`. -/
  | namespaceTool (name : Option Text) (tools : List (Option FunctionDict))
  /-- Another type. -/
  | builtIn

/-- A namespace, absent for the top level, and the name in it. -/
abbrev Member := Option Text × Text

/-- `functions` is the top level. -/
def normalNamespace (namespaceName : Option Text) : Option Text :=
  if namespaceName = some [] ∨ namespaceName = some "functions".toList then none else namespaceName

/-- The functions of an entry, each with its namespace. -/
def functionsOf : ToolDict → List (Option Text × FunctionDict)
  | .functionTool own inner => [(none, inner.getD own)]
  | .namespaceTool name tools =>
    (tools.filterMap id).map fun fn => (normalNamespace name, fn)
  | .builtIn => []

def members (tools : List ToolDict) : List Member :=
  (tools.flatMap functionsOf).map fun f => (f.1, f.2.getName)

/-! ## The maps -/

def counts (ms : List Member) (name : Text) : Nat := (ms.map Prod.snd).count name

/-- The namespace, or `functions` without one, two underscores and the name. -/
def qualified (m : Member) : Text :=
  (match m.1 with
    | none => "functions".toList
    | some ns => if ns = [] then "functions".toList else ns) ++ ("__".toList ++ m.2)

def wireName (ms : List Member) (m : Member) : Text :=
  if counts ms m.2 = 1 then m.2 else qualified m

structure NameMaps where
  wireToResponse : Text → Option Member
  responseToWire : Member → Option Text

/-- One turn of the loop over the members. -/
def NameMaps.put (ms : List Member) (maps : NameMaps) (m : Member) : NameMaps where
  wireToResponse := Function.update maps.wireToResponse (wireName ms m) (some m)
  responseToWire := Function.update maps.responseToWire m (some (wireName ms m))

def toolNameMaps (tools : List ToolDict) : NameMaps :=
  (members tools).foldl (NameMaps.put (members tools)) ⟨fun _ => none, fun _ => none⟩

def responseToolName (wire : Text) (tools : List ToolDict) : Member :=
  ((toolNameMaps tools).wireToResponse wire).getD (none, wire)

/-! ## Conversions -/

/-- The truth value of a Python value. -/
def truthy : Json → Bool
  | .null => false
  | .bool b => b
  | .int i => i != 0
  | .float f => f.text != "0.0".toList && f.text != "-0.0".toList
  | .str s => s != []
  | .array items => !items.isEmpty
  | .object ms => !ms.isEmpty

structure TemplateFunction where
  name : Text
  description : Json
  parameters : Json

def appendFunction (maps : NameMaps) (f : Option Text × FunctionDict) : TemplateFunction where
  name := (maps.responseToWire (f.1, f.2.getName)).getD f.2.getName
  description := f.2.description.getD .null
  parameters :=
    match f.2.parameters with
    | some p => if truthy p then p else .object [("type".toList, .str "object".toList)]
    | none => .object [("type".toList, .str "object".toList)]

def convertTools (tools : List ToolDict) : Option (List TemplateFunction) :=
  let converted := (tools.flatMap functionsOf).map (appendFunction (toolNameMaps tools))
  if tools = [] ∨ converted = [] then none else some converted

/-- The name under which `_convert_input_item` renders a replayed `function_call`. -/
def replayedName (maps : NameMaps) (namespaceName : Option Text) (name : Text) : Text :=
  let ns := if namespaceName = some "functions".toList then none else namespaceName
  (maps.responseToWire (ns, name)).getD name

/-- The names that the template is offered. -/
def offeredNames (tools : List ToolDict) : List Text :=
  ((convertTools tools).getD []).map TemplateFunction.name

/-! ## Going back -/

/-- The names that are offered are different, and every call is reported under the namespace and
name of the tool that was called, from where it is rendered under the same name again. -/
structure MapsBack (tools : List ToolDict) : Prop where
  distinct : (offeredNames tools).Nodup
  reported : ∀ m ∈ members tools, ∃ wire ∈ offeredNames tools,
    responseToolName wire tools = m ∧ replayedName (toolNameMaps tools) m.1 m.2 = wire

/-- No short name that is kept is the qualified name of another member, and no two members have
the same qualified name. -/
structure Unambiguous (ms : List Member) : Prop where
  kept : ∀ u ∈ ms, ∀ m ∈ ms, counts ms u.2 = 1 → counts ms m.2 ≠ 1 → u.2 ≠ qualified m
  apart : ∀ m ∈ ms, ∀ m' ∈ ms, counts ms m.2 ≠ 1 → counts ms m'.2 ≠ 1 →
    qualified m = qualified m' → m = m'

section Maps

variable {ms : List Member} {tools : List ToolDict}

theorem foldl_responseToWire (l : List Member) : ∀ (maps : NameMaps) (m : Member),
    (l.foldl (NameMaps.put ms) maps).responseToWire m =
      if m ∈ l then some (wireName ms m) else maps.responseToWire m := by
  induction l with
  | nil => exact fun maps m => rfl
  | cons a l ih =>
    intro maps m
    rw [List.foldl_cons, ih]
    by_cases hm : m ∈ l
    · rw [if_pos hm, if_pos (List.mem_cons_of_mem a hm)]
    · rw [if_neg hm]
      show Function.update maps.responseToWire a (some (wireName ms a)) m = _
      by_cases ha : m = a
      · rw [ha, Function.update_self, if_pos List.mem_cons_self]
      · have hnew : m ∉ a :: l := fun h => (List.mem_cons.mp h).elim ha hm
        rw [Function.update_of_ne ha, if_neg hnew]

theorem responseToWire_member {m : Member} (hm : m ∈ members tools) :
    (toolNameMaps tools).responseToWire m = some (wireName (members tools) m) := by
  rw [toolNameMaps, foldl_responseToWire, if_pos hm]

/-- A flat name leads back to one of the members that have it. -/
theorem foldl_wireToResponse (l : List Member) : ∀ (maps : NameMaps) (wire : Text),
    (∃ m ∈ l, wireName ms m = wire ∧
        (l.foldl (NameMaps.put ms) maps).wireToResponse wire = some m) ∨
      (∀ m ∈ l, wireName ms m ≠ wire) ∧
        (l.foldl (NameMaps.put ms) maps).wireToResponse wire = maps.wireToResponse wire := by
  induction l with
  | nil => exact fun maps wire => Or.inr ⟨fun m hm => absurd hm List.not_mem_nil, rfl⟩
  | cons a l ih =>
    intro maps wire
    rw [List.foldl_cons]
    rcases ih (maps.put ms a) wire with ⟨m, hm, hwire, hlast⟩ | ⟨hnone, hlast⟩
    · -- a later member of that flat name overwrites `a`
      exact Or.inl ⟨m, List.mem_cons_of_mem a hm, hwire, hlast⟩
    · by_cases ha : wireName ms a = wire
      · refine Or.inl ⟨a, List.mem_cons_self, ha, hlast.trans ?_⟩
        rw [← ha]
        exact Function.update_self _ _ _
      · refine Or.inr ⟨fun m hm => ?_, hlast.trans (Function.update_of_ne (Ne.symm ha) _ _)⟩
        rcases List.mem_cons.mp hm with rfl | hm
        · exact ha
        · exact hnone m hm

theorem responseToolName_member {m : Member} (hm : m ∈ members tools) :
    ∃ m' ∈ members tools, wireName (members tools) m' = wireName (members tools) m ∧
      responseToolName (wireName (members tools) m) tools = m' := by
  unfold responseToolName toolNameMaps
  rcases @foldl_wireToResponse (members tools) (members tools) ⟨fun _ => none, fun _ => none⟩
    (wireName (members tools) m) with ⟨m', hm', hwire, hlast⟩ | ⟨hnone, -⟩
  · exact ⟨m', hm', hwire, by rw [hlast, Option.getD_some]⟩
  · exact absurd rfl (hnone m hm)

/-- What is offered are the members' flat names. -/
theorem offeredNames_eq (tools : List ToolDict) :
    offeredNames tools = (members tools).map (wireName (members tools)) := by
  have hnames : ((tools.flatMap functionsOf).map (appendFunction (toolNameMaps tools))).map
      TemplateFunction.name = (members tools).map (wireName (members tools)) := by
    rw [List.map_map, members, List.map_map]
    refine List.map_congr_left fun f hf => ?_
    show ((toolNameMaps tools).responseToWire (f.1, f.2.getName)).getD f.2.getName = _
    rw [responseToWire_member (List.mem_map_of_mem hf), Option.getD_some]
    rfl
  rw [← hnames, offeredNames, convertTools]
  split
  · -- nothing converted is offered as nothing
    rename_i hempty
    have hnone : (tools.flatMap functionsOf).map (appendFunction (toolNameMaps tools)) = [] := by
      rcases hempty with rfl | hempty
      · rfl
      · exact hempty
    rw [hnone]
    rfl
  · rfl

theorem namespace_of_member {m : Member} (hm : m ∈ members tools) :
    m.1 ≠ some "functions".toList := by
  obtain ⟨f, hf, rfl⟩ := List.mem_map.mp hm
  obtain ⟨tool, -, hf⟩ := List.mem_flatMap.mp hf
  cases tool with
  | functionTool own inner =>
    rw [functionsOf, List.mem_singleton] at hf
    rw [hf]
    exact nofun
  | namespaceTool name tools =>
    -- the default namespace is dropped before a member is made
    obtain ⟨fn, -, rfl⟩ := List.mem_map.mp hf
    show normalNamespace name ≠ _
    unfold normalNamespace
    split
    · exact nofun
    · rename_i hname
      exact fun h => hname (Or.inr h)
  | builtIn => exact absurd hf List.not_mem_nil

theorem replayedName_member {m : Member} (hm : m ∈ members tools) :
    replayedName (toolNameMaps tools) m.1 m.2 = wireName (members tools) m := by
  rw [replayedName, if_neg (namespace_of_member hm), responseToWire_member hm, Option.getD_some]

/-- Members with the same short name are shared. -/
theorem counts_ne_one {m m' : Member} (hm : m ∈ ms) (hm' : m' ∈ ms)
    (hne : m ≠ m') (hname : m.2 = m'.2) : counts ms m.2 ≠ 1 := by
  intro hone
  have hcount : (ms.filter fun x => x.2 == m.2).length = 1 := by
    rw [← hone, counts, List.count, List.countP_map, List.countP_eq_length_filter]
    rfl
  -- both would be the one member of that short name
  obtain ⟨x, hx⟩ := List.length_eq_one_iff.mp hcount
  have hin : m ∈ ms.filter fun x => x.2 == m.2 := List.mem_filter.mpr ⟨hm, beq_self_eq_true _⟩
  have hin' : m' ∈ ms.filter fun x => x.2 == m.2 :=
    List.mem_filter.mpr ⟨hm', by rw [hname]; exact beq_self_eq_true _⟩
  rw [hx, List.mem_singleton] at hin hin'
  exact hne (hin.trans hin'.symm)

/-- Flat names are different where no name is ambiguous. -/
theorem wireName_inj (hun : Unambiguous ms) {m m' : Member} (hm : m ∈ ms)
    (hm' : m' ∈ ms) (h : wireName ms m = wireName ms m') : m = m' := by
  unfold wireName at h
  by_contra hne
  split at h
  · rename_i hone
    split at h
    · -- two short names
      exact counts_ne_one hm hm' hne h hone
    · -- a short name and a qualified one
      rename_i hshared
      exact hun.kept m hm m' hm' hone hshared h
  · rename_i hshared
    split at h
    · rename_i hone
      exact hun.kept m' hm' m hm hone hshared h.symm
    · -- two qualified names
      rename_i hshared'
      exact hne (hun.apart m hm m' hm' hshared hshared' h)

end Maps

/-- **Calls find their way back** exactly where no name is ambiguous. -/
theorem mapsBack_iff (tools : List ToolDict) (hnodup : (members tools).Nodup) :
    MapsBack tools ↔ Unambiguous (members tools) := by
  constructor
  · intro hback
    have hdistinct := hback.distinct
    rw [offeredNames_eq] at hdistinct
    have hinj : ∀ m ∈ members tools, ∀ m' ∈ members tools,
        wireName (members tools) m = wireName (members tools) m' → m = m' := fun m hm m' hm' h =>
      List.inj_on_of_nodup_map hdistinct hm hm' h
    -- two members of one flat name would have to be one member
    refine ⟨fun u hu m hm hone hshared heq => ?_, fun m hm m' hm' hshared hshared' heq => ?_⟩
    · have hsame := hinj u hu m hm (by rw [wireName, wireName, if_pos hone, if_neg hshared, heq])
      rw [hsame] at hone
      exact hshared hone
    · exact hinj m hm m' hm' (by rw [wireName, wireName, if_neg hshared, if_neg hshared', heq])
  · intro hun
    refine ⟨?_, fun m hm => ⟨wireName (members tools) m, ?_, ?_, replayedName_member hm⟩⟩
    · rw [offeredNames_eq]
      exact hnodup.map_on fun m hm m' hm' h => wireName_inj hun hm hm' h
    · rw [offeredNames_eq]
      exact List.mem_map_of_mem hm
    · obtain ⟨m', hm', hwire, hreported⟩ := responseToolName_member hm
      rw [hreported]
      exact wireName_inj hun hm' hm hwire

/-- A function dict with a name. -/
def named (name : String) : FunctionDict := ⟨some name.toList, none, none⟩

/-- `run` at the top level and in a namespace. -/
def sharedRun : List ToolDict :=
  [.functionTool (named "run") none, .namespaceTool (some "ornith".toList) [some (named "run")]]

theorem mapsBack_iff_sharedRun : MapsBack sharedRun :=
  (mapsBack_iff sharedRun (by decide)).mpr ⟨by decide, by decide⟩

/-- `run` in two namespaces, and a function called as one of them is qualified. -/
def qualifiedRun : List ToolDict :=
  [.namespaceTool (some "a".toList) [some (named "run")],
    .namespaceTool (some "b".toList) [some (named "run")], .functionTool (named "a__run") none]

/-- **Two tools are offered under one name.** -/
theorem not_mapsBack_qualifiedRun :
    (members qualifiedRun).Nodup ∧ ¬MapsBack qualifiedRun := by
  refine ⟨by decide, fun hback => ?_⟩
  have hdistinct := hback.distinct
  rw [offeredNames_eq] at hdistinct
  exact absurd hdistinct (by decide)

end FreeToken.Server.Responses
