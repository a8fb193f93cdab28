import Mathlib.Data.List.Basic
import Mathlib.Logic.Relation

/-!
# Loading modules

`njs_parser_module` and what it calls: the registry of modules, the lookup of a file, the
compilation of its text with the imports in it, and the order in which `njs_module_load`
evaluates the modules. A text is represented by its import statements.
-/

namespace Njs.Modules

/-- A specifier, or the text of a module's name. -/
abbrev Name : Type := List UInt8

/-- A file name. -/
abbrev Path : Type := List UInt8

/-- The byte `'/'`. -/
def slash : UInt8 := 0x2f

/-- The byte `'.'`. -/
def dot : UInt8 := 0x2e

/-- `NJS_MAX_NESTING`. -/
def maxNesting : ℕ := 8

/-- The text of a program or of a module. -/
structure Text where
  /-- The specifiers of its import statements, in order. -/
  imports : List Name
  /-- Whether the rest of it can be compiled at a level of function nesting. -/
  legal : ℕ → Bool

/-- The files, and what `open` and `realpath` make of names. -/
structure FileSystem (C : Type) where
  /-- The canonical path of a name that can be opened. -/
  canonical : Path → Option C
  /-- The text of a regular file that can be read. -/
  text : C → Option Text

/-- The environment of a compilation. -/
structure Config (C : Type) where
  /-- The file system. -/
  fs : FileSystem C
  /-- `vm->paths`. -/
  paths : List Path
  /-- The names of the native modules. -/
  natives : List Name
  natives_nodup : natives.Nodup
  /-- `vm->options.sandbox`. -/
  sandbox : Bool
  /-- The file name of the main program. -/
  main : Path
  /-- The text of the main program, which is read from its file if there is one. -/
  mainText : Text
  text_main : ∀ c, fs.canonical main = some c → fs.text c = some mainText

/-- Why a compilation ends early. -/
inductive Failure
  /-- A byte before the start of a string is read. -/
  | fault
  | cannotFind (name : Name)
  | reading (name : Name)
  | itself (name : Name)
  /-- `The maximum function nesting level is "8"`. -/
  | nesting
  /-- Another error in a text. -/
  | illegal
  /-- `lvlhsh insert failed`. -/
  | insertFailed
  deriving DecidableEq

/-- What a module is made from. -/
inductive Source
  | native
  /-- The file that was opened, and the modules that its import statements are bound to. -/
  | file (path : Path) (bindings : List (Name × ℕ))
  deriving DecidableEq

/-- `njs_module_t`. -/
structure Module where
  /-- The `name` field. -/
  name : Name
  /-- The `function` field. -/
  source : Source
  deriving DecidableEq

/-- The part of `njs_vm_t` that modules use. A module is named by its place in the first
list, and its `index` is set when it gets into the second one. -/
structure Vm where
  /-- The modules of `modules_hash`. -/
  modules : List Module
  /-- `vm->modules`. -/
  order : List ℕ
  deriving DecidableEq

/-- `njs_module_find`. -/
def moduleFind (vm : Vm) (name : Name) : Option ℕ :=
  vm.modules.findIdx? fun m => m.name = name

/-- `njs_module_add`, with the function that the module gets. An element of the hash is not
replaced. -/
def moduleAdd (vm : Vm) (name : Name) (source : Source) : Except Failure (ℕ × Vm) :=
  match moduleFind vm name with
  | some _ => .error .insertFailed
  | none => .ok (vm.modules.length, { vm with modules := vm.modules ++ [⟨name, source⟩] })

/-- `njs_module_insert`, for a module without an index. -/
def moduleInsert (vm : Vm) (m : ℕ) : Vm :=
  if m ∈ vm.order then vm else { vm with order := vm.order ++ [m] }

/-- `njs_file_dirname`. -/
def dirname (path : Path) : Path :=
  if path = [] then [dot]
  else
    -- Stripping basename.
    let dir := (path.reverse.dropWhile (· ≠ slash)).reverse
    if dir = [] then [dot]
    else
      -- Stripping trailing slashes.
      let stripped := (dir.reverse.dropWhile (· = slash)).reverse
      if stripped = [] then dir else stripped

/-- The `cwd` of a scope in the text of a file, as `njs_parser_scope_begin` sets it. -/
def scopeCwd (file : Path) : Path := if file = [] then [] else dirname file

variable {C : Type}

/-- `open` of a file name. -/
def openFile (cfg : Config C) (file : Path) : Option Path :=
  if (cfg.fs.canonical file).isSome then some file else none

/-- `njs_module_relative_path`: the file that is opened, if any. -/
def relativePath (cfg : Config C) (dir : Path) (name : Name) : Except Failure (Option Path) :=
  match dir.getLast? with
  | none => .error .fault
  | some last => .ok (openFile cfg (dir ++ (if last ≠ slash then [slash] else []) ++ name))

/-- The loop of `njs_module_lookup` over the configured paths. -/
def pathsLookup (cfg : Config C) (name : Name) : List Path → Except Failure (Option Path)
  | [] => .ok none
  | path :: paths => do
    match ← relativePath cfg path name with
    | some file => pure (some file)
    | none => pathsLookup cfg name paths

/-- `njs_module_lookup`, for a name that is not empty. -/
def moduleLookup (cfg : Config C) (cwd : Path) (name : Name) : Except Failure (Option Path) :=
  if name.head? = some slash then .ok (openFile cfg name)
  else do
    match ← relativePath cfg cwd name with
    | some file => pure (some file)
    | none => pathsLookup cfg name cfg.paths

/-- `njs_module_realpath_equal`. -/
def realpathEqual [DecidableEq C] (cfg : Config C) (path1 path2 : Path) : Bool :=
  cfg.fs.canonical path1 = cfg.fs.canonical path2

/-- The import statements of a text, in order. -/
def parseImports (importStatement : Name → Vm → Except Failure (ℕ × Vm)) :
    List Name → Vm → Except Failure (List (Name × ℕ) × Vm)
  | [], vm => .ok ([], vm)
  | name :: names, vm => do
    let (m, vm) ← importStatement name vm
    let (bindings, vm) ← parseImports importStatement names vm
    pure ((name, m) :: bindings, vm)

/-- `njs_parser_module` in the text of a file, with `njs_parser_module_lambda` as a
parameter. -/
def importModule [DecidableEq C] (cfg : Config C)
    (moduleLambda : Path → Text → Vm → Except Failure (List (Name × ℕ) × Vm)) (file : Path)
    (name : Name) (vm : Vm) : Except Failure (ℕ × Vm) :=
  match moduleFind vm name with
  | some m => .ok (m, moduleInsert vm m)
  | none =>
    if cfg.sandbox ∨ name = [] then .error (.cannotFind name)
    else do
      match ← moduleLookup cfg (scopeCwd file) name with
      | none => .error (.cannotFind name)
      | some path =>
        match (cfg.fs.canonical path).bind cfg.fs.text with
        | none => .error (.reading name)
        | some text =>
          if realpathEqual cfg file path then .error (.itself name)
          else
            let (bindings, vm) ← moduleLambda path text vm
            let (m, vm) ← moduleAdd vm name (.file path bindings)
            pure (m, moduleInsert vm m)

/-- `njs_parser_module`, where so many more functions may be nested. -/
def parserModule [DecidableEq C] (cfg : Config C) :
    ℕ → Path → Name → Vm → Except Failure (ℕ × Vm)
  | 0 => importModule cfg fun _ _ _ => .error .nesting
  | depth + 1 => importModule cfg fun path text vm => do
    let r ← parseImports (parserModule cfg depth path) text.imports vm
    if text.legal (maxNesting - (depth + 1)) then pure r else .error .illegal

/-- The modules before anything is compiled. -/
def initialVm (cfg : Config C) : Vm :=
  { modules := cfg.natives.map fun name => ⟨name, .native⟩, order := [] }

/-- The compilation of the main program: what its import statements are bound to. -/
def compile [DecidableEq C] (cfg : Config C) : Except Failure (List (Name × ℕ) × Vm) := do
  let r ← parseImports (parserModule cfg maxNesting cfg.main) cfg.mainText.imports (initialVm cfg)
  if cfg.mainText.legal 0 then pure r else .error .illegal

/-- `njs_module_load`: the modules that are evaluated, up to the first one that throws. -/
def moduleLoad (throws : ℕ → Bool) : List ℕ → List ℕ
  | [] => []
  | m :: rest => if throws m then [m] else m :: moduleLoad throws rest

end Njs.Modules

/-!
## What import statements mean

The file that a specifier denotes depends on the directory of the file that contains the import
statement for it. The files reached from the main program form a graph, and a compilation is
right if it binds every import to the module of its file, once for each file, in an order
that respects the graph.
-/

namespace Njs.Modules

variable {C : Type}

/-- A specifier in a directory. -/
def join (dir : Path) (name : Name) : Path :=
  dir ++ (if dir.getLast? ≠ some slash then [slash] else []) ++ name

/-- The file names that a specifier may stand for: itself if it is absolute, or else in the
directory of the file, and in the configured ones. -/
def candidates (cfg : Config C) (file : Path) (name : Name) : List Path :=
  if name.head? = some slash then [name]
  else (dirname file :: cfg.paths).map fun dir => join dir name

/-- The file that a specifier denotes in the text of a file. -/
def denotes (cfg : Config C) (file : Path) (name : Name) : Option Path :=
  if cfg.sandbox ∨ name = [] then none
  else (candidates cfg file name).find? fun path => (cfg.fs.canonical path).isSome

/-- The text of a file. -/
def textOf (cfg : Config C) (file : Path) : Option Text := (cfg.fs.canonical file).bind cfg.fs.text

/-- The text of the main program or of a module. -/
def unitText (cfg : Config C) (file : Path) : Option Text :=
  if file = cfg.main then some cfg.mainText else textOf cfg file

/-- The text of a file contains an import statement for a specifier that is not the name of
a native module. -/
def Imports (cfg : Config C) (file : Path) (name : Name) : Prop :=
  ∃ text, unitText cfg file = some text ∧ name ∈ text.imports ∧ name ∉ cfg.natives

/-- The files reached from the main program by a number of imports. -/
inductive Reach (cfg : Config C) : ℕ → Path → Prop
  | main : Reach cfg 0 cfg.main
  | imported {n : ℕ} {file path : Path} {name : Name} (h : Reach cfg n file)
      (himports : Imports cfg file name) (hdenotes : denotes cfg file name = some path) :
      Reach cfg (n + 1) path

/-- An import statement in a file that is reached. -/
def Site (cfg : Config C) (file : Path) (name : Name) : Prop :=
  (∃ n, Reach cfg n file) ∧ Imports cfg file name

/-- The canonical path of the file that an import statement denotes. -/
def target (cfg : Config C) (file : Path) (name : Name) : Option C :=
  (denotes cfg file name).bind cfg.fs.canonical

/-- One file imports another. -/
def Edge (cfg : Config C) (c d : C) : Prop :=
  ∃ file name, Site cfg file name ∧ cfg.fs.canonical file = some c ∧ target cfg file name = some d

/-- Import statements have the same specifier exactly when they denote the same file. -/
structure NamesAgree (cfg : Config C) : Prop where
  target_eq : ∀ file file' name, Site cfg file name → Site cfg file' name →
    target cfg file name = target cfg file' name
  name_eq : ∀ file file' name name' c, Site cfg file name → Site cfg file' name' →
    target cfg file name = some c → target cfg file' name' = some c → name = name'

/-- No directory that a specifier is looked up in has an empty name. -/
structure Named (cfg : Config C) : Prop where
  main_ne : cfg.main ≠ []
  paths_ne : ∀ path ∈ cfg.paths, path ≠ []

/-- An import statement is bound to the native module of its name, or to the module of the
file that it denotes. -/
def BoundRight (cfg : Config C) (vm : Vm) (file : Path) (binding : Name × ℕ) : Prop :=
  ∃ m, vm.modules[binding.2]? = some m ∧
    match m.source with
    | .native => binding.1 ∈ cfg.natives ∧ m.name = binding.1
    | .file path _ => binding.1 ∉ cfg.natives ∧ ∃ c, cfg.fs.canonical path = some c ∧
        target cfg file binding.1 = some c

/-- The bindings of the modules that a list of modules starts with are to modules before
them. -/
def ImportsFirst (vm : Vm) (order : List ℕ) : Prop :=
  ∀ before m after, order = before ++ m :: after → ∀ name path bindings,
    vm.modules[m]? = some (Module.mk name (.file path bindings)) → ∀ b ∈ bindings, b.2 ∈ before

/-- The main program and all modules are compiled as they should be. -/
structure Right (cfg : Config C) (bindings : List (Name × ℕ)) (vm : Vm) : Prop where
  /-- All imports of the main program are bound to the right modules. -/
  main_names : bindings.map Prod.fst = cfg.mainText.imports
  main_bound : ∀ b ∈ bindings, BoundRight cfg vm cfg.main b
  /-- So are all imports of the modules. -/
  module_names : ∀ (m : ℕ) name path bs, vm.modules[m]? = some (Module.mk name (.file path bs)) →
    ∃ text, textOf cfg path = some text ∧ bs.map Prod.fst = text.imports
  module_bound : ∀ (m : ℕ) name path bs, vm.modules[m]? = some (Module.mk name (.file path bs)) →
    ∀ b ∈ bs, BoundRight cfg vm path b
  /-- A file is compiled once. -/
  once : ∀ (m m' : ℕ) name name' path path' bs bs' c,
    vm.modules[m]? = some (Module.mk name (.file path bs)) →
    vm.modules[m']? = some (Module.mk name' (.file path' bs')) →
    cfg.fs.canonical path = some c → cfg.fs.canonical path' = some c → m = m'
  /-- A module is evaluated once at most, after those that it imports; and if nothing is
  thrown, all modules are evaluated. -/
  evaluated_nodup : ∀ throws, (moduleLoad throws vm.order).Nodup
  evaluated_first : ∀ throws, ImportsFirst vm (moduleLoad throws vm.order)
  evaluated_main : ∀ b ∈ bindings, b.2 ∈ moduleLoad (fun _ => false) vm.order
  evaluated_module : ∀ (m : ℕ) name path bs, vm.modules[m]? =
      some (Module.mk name (.file path bs)) →
    m ∈ moduleLoad (fun _ => false) vm.order
  /-- No file imports itself, however indirectly. -/
  acyclic : ∀ c, ¬ Relation.TransGen (Edge cfg) c c

/-- A compilation may fail for the reason that it gives. -/
def Deserved (cfg : Config C) : Failure → Prop
  | .fault => False
  | .cannotFind name => ∃ file, Site cfg file name ∧ denotes cfg file name = none
  | .reading name => ∃ file path, Site cfg file name ∧ denotes cfg file name = some path ∧
      textOf cfg path = none
  | .itself name => ∃ file path, Site cfg file name ∧ denotes cfg file name = some path ∧
      cfg.fs.canonical file = cfg.fs.canonical path
  | .nesting => ∃ path, Reach cfg (maxNesting + 1) path
  | .illegal => cfg.mainText.legal 0 = false ∨
      ∃ n path text, Reach cfg (n + 1) path ∧ textOf cfg path = some text ∧ text.legal n = false
  | .insertFailed => False

/-- The compilation is right, or fails for a reason. -/
def Loads [DecidableEq C] (cfg : Config C) : Prop :=
  match compile cfg with
  | .ok (bindings, vm) => Right cfg bindings vm
  | .error f => Deserved cfg f

end Njs.Modules
