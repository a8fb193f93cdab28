import Mathlib.Data.List.Nodup
import Njs.Modules.Loading

/-!
# The registry of modules

The invariant of the registry while import statements are compiled, what may be added to it,
and what it says about the graph of files.
-/

namespace Njs.Modules

variable {C : Type}

/-! ### The lookup of a file -/

theorem join_ne_nil {dir : Path} {name : Name} (hname : name ≠ []) : join dir name ≠ [] := by
  simp [join, hname]

theorem openFile_join (cfg : Config C) {dir : Path} (hdir : dir ≠ []) (name : Name) :
    relativePath cfg dir name = .ok (openFile cfg (join dir name)) := by
  unfold relativePath join
  rw [List.getLast?_eq_some_getLast hdir]
  simp

theorem openFile_eq_find (cfg : Config C) (path : Path) :
    openFile cfg path = [path].find? fun p => (cfg.fs.canonical p).isSome := by
  unfold openFile
  cases h : (cfg.fs.canonical path).isSome <;> simp [List.find?, h]

theorem pathsLookup_eq (cfg : Config C) (name : Name) (paths : List Path)
    (hne : ∀ path ∈ paths, path ≠ []) :
    pathsLookup cfg name paths =
      .ok ((paths.map fun dir => join dir name).find? fun p => (cfg.fs.canonical p).isSome) := by
  induction paths with
  | nil => rfl
  | cons path paths ih =>
    have hrest := ih fun p hp => hne p (List.mem_cons_of_mem _ hp)
    rw [pathsLookup, openFile_join cfg (hne path List.mem_cons_self)]
    simp only [openFile, List.map_cons, List.find?_cons]
    cases h : (cfg.fs.canonical (join path name)).isSome
    · simpa [bind, Except.bind] using hrest
    · simp [bind, Except.bind, pure, Except.pure]

theorem dirname_ne_nil (path : Path) : dirname path ≠ [] := by
  unfold dirname
  dsimp only
  split_ifs with hpath hdir hstripped
  · simp
  · simp
  · exact hdir
  · exact hstripped

theorem moduleLookup_eq (cfg : Config C) (hnamed : Named cfg) {file : Path} (hfile : file ≠ [])
    (name : Name) :
    moduleLookup cfg (scopeCwd file) name =
      .ok ((candidates cfg file name).find? fun p => (cfg.fs.canonical p).isSome) := by
  unfold moduleLookup candidates
  split_ifs with habsolute
  · rw [openFile_eq_find]
  · rw [scopeCwd, if_neg hfile, openFile_join cfg (dirname_ne_nil file),
      pathsLookup_eq cfg name cfg.paths hnamed.paths_ne]
    simp only [openFile, List.map_cons, List.find?_cons]
    cases h : (cfg.fs.canonical (join (dirname file) name)).isSome <;>
      simp [bind, Except.bind, pure, Except.pure]

theorem candidates_ne_nil (cfg : Config C) (file : Path) {name : Name} (hname : name ≠ []) :
    ∀ path ∈ candidates cfg file name, path ≠ [] := by
  intro path hpath
  unfold candidates at hpath
  split_ifs at hpath with habsolute
  · rw [List.mem_singleton.mp hpath]
    exact hname
  · obtain ⟨dir, _, rfl⟩ := List.mem_map.mp hpath
    exact join_ne_nil hname

theorem denotes_ne_nil {cfg : Config C} {file path : Path} {name : Name}
    (h : denotes cfg file name = some path) : path ≠ [] := by
  unfold denotes at h
  split_ifs at h with hname
  exact candidates_ne_nil cfg file (fun h => hname (.inr h)) path (List.mem_of_find?_eq_some h)

theorem denotes_canonical {cfg : Config C} {file path : Path} {name : Name}
    (h : denotes cfg file name = some path) :
    ∃ c, cfg.fs.canonical path = some c ∧ target cfg file name = some c := by
  have hopen : (cfg.fs.canonical path).isSome := by
    have h' := h
    unfold denotes at h'
    split_ifs at h' with hname
    simpa using List.find?_some h'
  obtain ⟨c, hc⟩ := Option.isSome_iff_exists.mp hopen
  exact ⟨c, hc, by rw [target, h, Option.bind_some, hc]⟩

theorem Reach.ne_nil {cfg : Config C} (hnamed : Named cfg) {n : ℕ} {file : Path}
    (h : Reach cfg n file) : file ≠ [] := by
  cases h with
  | main => exact hnamed.main_ne
  | imported _ _ hdenotes => exact denotes_ne_nil hdenotes

theorem unitText_eq_textOf {cfg : Config C} {file : Path} {c : C}
    (hc : cfg.fs.canonical file = some c) : unitText cfg file = textOf cfg file := by
  unfold unitText
  split_ifs with hmain
  · rw [textOf, hc, Option.bind_some, cfg.text_main c (hmain ▸ hc)]
  · rfl

/-! ### One import statement -/

/-- `njs_parser_module` finds a registered module by its name, or else opens, reads, compiles
and adds the module of the file that the specifier denotes. -/
theorem importModule_eq [DecidableEq C] (cfg : Config C) (hnamed : Named cfg)
    (moduleLambda : Path → Text → Vm → Except Failure (List (Name × ℕ) × Vm)) {file : Path}
    (hfile : file ≠ []) (name : Name) (vm : Vm) :
    importModule cfg moduleLambda file name vm =
      match moduleFind vm name with
      | some m => .ok (m, moduleInsert vm m)
      | none =>
        match denotes cfg file name with
        | none => .error (.cannotFind name)
        | some path =>
          match textOf cfg path with
          | none => .error (.reading name)
          | some text =>
            if cfg.fs.canonical file = cfg.fs.canonical path then .error (.itself name)
            else (do
              let (bindings, vm) ← moduleLambda path text vm
              let (m, vm) ← moduleAdd vm name (.file path bindings)
              pure (m, moduleInsert vm m)) := by
  unfold importModule denotes
  cases moduleFind vm name with
  | some m => rfl
  | none =>
    dsimp only
    split_ifs with hname
    · rfl
    · rw [moduleLookup_eq cfg hnamed hfile]
      simp only [bind, Except.bind]
      cases (candidates cfg file name).find? fun p => (cfg.fs.canonical p).isSome with
      | none => rfl
      | some path =>
        cases hcanonical : (cfg.fs.canonical path).bind cfg.fs.text <;>
          simp only [textOf, realpathEqual, decide_eq_true_eq, hcanonical]

theorem moduleFind_some {vm : Vm} {name : Name} {m : ℕ} (h : moduleFind vm name = some m) :
    ∃ source, vm.modules[m]? = some ⟨name, source⟩ := by
  obtain ⟨hlt, hname, _⟩ := List.findIdx?_eq_some_iff_getElem.mp h
  refine ⟨vm.modules[m].source, ?_⟩
  rw [List.getElem?_eq_getElem hlt]
  simp only [decide_eq_true_eq] at hname
  rw [← hname]

theorem moduleFind_none {vm : Vm} {name : Name} (h : moduleFind vm name = none) :
    name ∉ vm.modules.map Module.name := by
  intro hmem
  obtain ⟨m, hm, hname⟩ := List.mem_map.mp hmem
  have hall := List.findIdx?_eq_none_iff.mp h m hm
  simp [hname] at hall

/-! ### The invariant -/

/-- An import statement's specifier is the name of the module that it is bound to. -/
def Holds (vm : Vm) (binding : Name × ℕ) : Prop :=
  ∃ source, vm.modules[binding.2]? = some ⟨binding.1, source⟩

/-- What holds of the registry between two import statements. -/
structure Good (cfg : Config C) (vm : Vm) : Prop where
  names : (vm.modules.map Module.name).Nodup
  natives : ∀ name ∈ cfg.natives, (⟨name, .native⟩ : Module) ∈ vm.modules
  native_name : ∀ (m : ℕ) name, vm.modules[m]? = some ⟨name, .native⟩ → name ∈ cfg.natives
  /-- A module was made for an import statement, from the file that it denotes there. -/
  origin : ∀ (m : ℕ) name path bs, vm.modules[m]? = some ⟨name, .file path bs⟩ →
    ∃ file, Site cfg file name ∧ denotes cfg file name = some path
  /-- All imports of its text are bound. -/
  bindings : ∀ (m : ℕ) name path bs, vm.modules[m]? = some ⟨name, .file path bs⟩ →
    ∃ text, textOf cfg path = some text ∧ bs.map Prod.fst = text.imports ∧ ∀ b ∈ bs, Holds vm b
  order_nodup : vm.order.Nodup
  order_lt : ∀ m ∈ vm.order, m < vm.modules.length
  order_file : ∀ (m : ℕ) name path bs, vm.modules[m]? = some ⟨name, .file path bs⟩ → m ∈ vm.order
  order_first : ImportsFirst vm vm.order

/-- A module's file is imported by a file, perhaps indirectly. -/
def Below (cfg : Config C) (file : Path) (vm : Vm) (m : ℕ) : Prop :=
  ∀ name path bs, vm.modules[m]? = some ⟨name, .file path bs⟩ →
    ∀ c, cfg.fs.canonical file = some c →
      ∃ d, cfg.fs.canonical path = some d ∧ Relation.TransGen (Edge cfg) c d

/-- What the compilation of imports in a file does to the registry. -/
structure Grown (cfg : Config C) (file : Path) (vm vm' : Vm) : Prop where
  modules : vm.modules <+: vm'.modules
  order : vm.order <+: vm'.order
  below : ∀ m, vm.modules.length ≤ m → Below cfg file vm' m

theorem Grown.refl (cfg : Config C) (file : Path) (vm : Vm) : Grown cfg file vm vm where
  modules := List.prefix_rfl
  order := List.prefix_rfl
  below := by
    intro m hm name path bs hget
    rw [List.getElem?_eq_none hm] at hget
    exact absurd hget (by simp)

theorem getElem?_of_prefix {α : Type*} {l l' : List α} (h : l <+: l') {i : ℕ} {a : α}
    (hget : l[i]? = some a) : l'[i]? = some a := by
  obtain ⟨t, rfl⟩ := h
  rw [List.getElem?_append_left (List.getElem?_eq_some_iff.mp hget).1]
  exact hget

theorem getElem?_of_prefix_lt {α : Type*} {l l' : List α} (h : l <+: l') {i : ℕ}
    (hi : i < l.length) : l'[i]? = l[i]? := by
  obtain ⟨t, rfl⟩ := h
  exact List.getElem?_append_left hi

theorem Grown.trans {cfg : Config C} {file : Path} {vm vm' vm'' : Vm}
    (h : Grown cfg file vm vm') (h' : Grown cfg file vm' vm'') : Grown cfg file vm vm'' where
  modules := h.modules.trans h'.modules
  order := h.order.trans h'.order
  below := by
    intro m hm
    by_cases hlt : m < vm'.modules.length
    · intro name path bs hget
      rw [getElem?_of_prefix_lt h'.modules hlt] at hget
      exact h.below m hm name path bs hget
    · exact h'.below m (by omega)

theorem Holds.grown {vm vm' : Vm} (h : vm.modules <+: vm'.modules) {b : Name × ℕ}
    (hb : Holds vm b) : Holds vm' b := by
  obtain ⟨source, hget⟩ := hb
  exact ⟨source, getElem?_of_prefix h hget⟩

/-! ### The two ways in which the registry grows -/

theorem ImportsFirst.snoc {vm : Vm} {order : List ℕ} (h : ImportsFirst vm order) {m : ℕ}
    (hm : ∀ name path bs, vm.modules[m]? = some ⟨name, .file path bs⟩ → ∀ b ∈ bs, b.2 ∈ order) :
    ImportsFirst vm (order ++ [m]) := by
  intro before k after heq name path bs hget b hb
  rcases List.append_eq_append_iff.mp heq with ⟨rest, hbefore, hlast⟩ | ⟨rest, horder, hlast⟩
  · -- the module that was appended
    cases rest with
    | nil =>
      simp only [List.nil_append, List.cons.injEq] at hlast
      obtain ⟨rfl, -⟩ := hlast
      rw [hbefore, List.append_nil]
      exact hm name path bs hget b hb
    | cons x rest => simp at hlast
  · cases rest with
    | nil =>
      simp only [List.nil_append, List.cons.injEq] at hlast
      obtain ⟨rfl, -⟩ := hlast
      rw [List.append_nil] at horder
      rw [← horder]
      exact hm name path bs hget b hb
    | cons x rest =>
      simp only [List.cons_append, List.cons.injEq] at hlast
      obtain ⟨rfl, -⟩ := hlast
      exact h before k rest horder name path bs hget b hb

theorem ImportsFirst.congr {vm vm' : Vm} {order : List ℕ} (h : ImportsFirst vm order)
    (hmodules : vm.modules <+: vm'.modules) (hlt : ∀ m ∈ order, m < vm.modules.length) :
    ImportsFirst vm' order := by
  intro before m after heq name path bs hget
  have hm : m ∈ order := by simp [heq]
  rw [getElem?_of_prefix_lt hmodules (hlt m hm)] at hget
  exact h before m after heq name path bs hget

theorem moduleInsert_modules (vm : Vm) (m : ℕ) : (moduleInsert vm m).modules = vm.modules := by
  unfold moduleInsert
  split_ifs <;> rfl

theorem mem_moduleInsert_order (vm : Vm) (m : ℕ) : m ∈ (moduleInsert vm m).order := by
  unfold moduleInsert
  split_ifs with h
  · exact h
  · simp

theorem moduleInsert_order (vm : Vm) (m : ℕ) : vm.order <+: (moduleInsert vm m).order := by
  unfold moduleInsert
  split_ifs with h
  · exact List.prefix_rfl
  · exact List.prefix_append _ _

/-- A module that was found is inserted. -/
theorem Good.insert {cfg : Config C} {vm : Vm} (h : Good cfg vm) {m : ℕ}
    (hm : m < vm.modules.length) : Good cfg (moduleInsert vm m) := by
  unfold moduleInsert
  split_ifs with hmem
  · exact h
  · exact {
      names := h.names
      natives := h.natives
      native_name := h.native_name
      origin := h.origin
      bindings := h.bindings
      order_nodup := by
        rw [List.nodup_append]
        refine ⟨h.order_nodup, List.nodup_singleton m, fun a ha b hb hab => ?_⟩
        rw [List.mem_singleton.mp hb] at hab
        exact hmem (hab ▸ ha)
      order_lt := by
        intro k hk
        rcases List.mem_append.mp hk with hk | hk
        · exact h.order_lt k hk
        · rw [List.mem_singleton.mp hk]
          exact hm
      order_file := fun k name path bs hget =>
        List.mem_append_left _ (h.order_file k name path bs hget)
      order_first := by
        refine h.order_first.snoc fun name path bs hget => ?_
        -- only a native module can be registered and have no index
        exact absurd (h.order_file m name path bs hget) hmem }

/-- The registry with a new module of a file, which is inserted. -/
def addFile (vm : Vm) (name : Name) (path : Path) (bs : List (Name × ℕ)) : Vm :=
  { modules := vm.modules ++ [⟨name, .file path bs⟩], order := vm.order ++ [vm.modules.length] }

theorem addFile_modules (vm : Vm) (name : Name) (path : Path) (bs : List (Name × ℕ)) :
    vm.modules <+: (addFile vm name path bs).modules := List.prefix_append _ _

theorem addFile_get {vm : Vm} {name : Name} {path : Path} {bs : List (Name × ℕ)} {m : ℕ}
    {module : Module} (h : (addFile vm name path bs).modules[m]? = some module) :
    vm.modules[m]? = some module ∨
      m = vm.modules.length ∧ module = ⟨name, .file path bs⟩ := by
  unfold addFile at h
  rcases Nat.lt_or_ge m vm.modules.length with hlt | hge
  · rw [List.getElem?_append_left hlt] at h
    exact .inl h
  · rw [List.getElem?_append_right hge] at h
    obtain ⟨hlt, hget⟩ := List.getElem?_eq_some_iff.mp h
    simp only [List.length_singleton] at hlt
    refine .inr ⟨by omega, ?_⟩
    simp only [show m - vm.modules.length = 0 by omega, List.getElem_cons_zero] at hget
    exact hget.symm

theorem Good.addFile {cfg : Config C} {vm : Vm} (h : Good cfg vm) {name : Name} {file path : Path}
    {bs : List (Name × ℕ)} {text : Text} (hnew : name ∉ vm.modules.map Module.name)
    (hsite : Site cfg file name) (hdenotes : denotes cfg file name = some path)
    (htext : textOf cfg path = some text) (hnames : bs.map Prod.fst = text.imports)
    (hbs : ∀ b ∈ bs, b.2 ∈ vm.order ∧ Holds vm b) : Good cfg (addFile vm name path bs) := by
  have hgrown := addFile_modules vm name path bs
  exact {
    names := by
      simp only [Modules.addFile, List.map_append, List.map_cons, List.map_nil]
      refine List.nodup_append.mpr ⟨h.names, List.nodup_singleton name, fun a ha b hb hab => ?_⟩
      rw [List.mem_singleton.mp hb] at hab
      exact hnew (hab ▸ ha)
    natives := fun name hname => hgrown.subset (h.natives name hname)
    native_name := by
      intro m name' hget
      rcases addFile_get hget with hget | ⟨-, hmodule⟩
      · exact h.native_name m name' hget
      · simp at hmodule
    origin := by
      intro m name' path' bs' hget
      rcases addFile_get hget with hget | ⟨-, hmodule⟩
      · exact h.origin m name' path' bs' hget
      · simp only [Module.mk.injEq, Source.file.injEq] at hmodule
        obtain ⟨rfl, rfl, rfl⟩ := hmodule
        exact ⟨file, hsite, hdenotes⟩
    bindings := by
      intro m name' path' bs' hget
      rcases addFile_get hget with hget | ⟨-, hmodule⟩
      · obtain ⟨text', htext', hnames', hholds⟩ := h.bindings m name' path' bs' hget
        exact ⟨text', htext', hnames', fun b hb => (hholds b hb).grown hgrown⟩
      · simp only [Module.mk.injEq, Source.file.injEq] at hmodule
        obtain ⟨rfl, rfl, rfl⟩ := hmodule
        exact ⟨text, htext, hnames, fun b hb => (hbs b hb).2.grown hgrown⟩
    order_nodup := by
      refine List.nodup_append.mpr
        ⟨h.order_nodup, List.nodup_singleton _, fun a ha b hb hab => ?_⟩
      rw [List.mem_singleton.mp hb] at hab
      have := h.order_lt a ha
      omega
    order_lt := by
      intro m hm
      simp only [Modules.addFile, List.length_append, List.length_singleton]
      rcases List.mem_append.mp hm with hm | hm
      · have := h.order_lt m hm
        omega
      · rw [List.mem_singleton.mp hm]
        omega
    order_file := by
      intro m name' path' bs' hget
      rcases addFile_get hget with hget | ⟨rfl, -⟩
      · exact List.mem_append_left _ (h.order_file m name' path' bs' hget)
      · exact List.mem_append_right _ (List.mem_singleton_self _)
    order_first := by
      refine (h.order_first.congr hgrown h.order_lt).snoc fun name' path' bs' hget => ?_
      rcases addFile_get hget with hget | ⟨-, hmodule⟩
      · rw [List.getElem?_eq_none (Nat.le_refl _)] at hget
        exact absurd hget (by simp)
      · simp only [Module.mk.injEq, Source.file.injEq] at hmodule
        obtain ⟨rfl, rfl, rfl⟩ := hmodule
        exact fun b hb => (hbs b hb).1 }

theorem initialVm_good (cfg : Config C) : Good cfg (initialVm cfg) where
  names := by simpa [initialVm, Function.comp_def] using cfg.natives_nodup
  natives := by
    intro name hname
    exact List.mem_map.mpr ⟨name, hname, rfl⟩
  native_name := by
    intro m name hget
    obtain ⟨name', hname', heq⟩ := List.mem_map.mp (List.mem_of_getElem? hget)
    simp only [Module.mk.injEq, and_true] at heq
    exact heq ▸ hname'
  origin := by
    intro m name path bs hget
    obtain ⟨name', -, heq⟩ := List.mem_map.mp (List.mem_of_getElem? hget)
    simp at heq
  bindings := by
    intro m name path bs hget
    obtain ⟨name', -, heq⟩ := List.mem_map.mp (List.mem_of_getElem? hget)
    simp at heq
  order_nodup := List.nodup_nil
  order_lt := by simp [initialVm]
  order_file := by
    intro m name path bs hget
    obtain ⟨name', -, heq⟩ := List.mem_map.mp (List.mem_of_getElem? hget)
    simp at heq
  order_first := by
    intro before m after heq
    simp [initialVm] at heq

/-! ### The graph of files -/

theorem Good.eq_of_name {cfg : Config C} {vm : Vm} (h : Good cfg vm) {m m' : ℕ} {name : Name}
    {source source' : Source} (hm : vm.modules[m]? = some ⟨name, source⟩)
    (hm' : vm.modules[m']? = some ⟨name, source'⟩) : m = m' := by
  obtain ⟨hlt, hget⟩ := List.getElem?_eq_some_iff.mp hm
  obtain ⟨hlt', hget'⟩ := List.getElem?_eq_some_iff.mp hm'
  have hi : m < (vm.modules.map Module.name).length := by simpa using hlt
  have hj : m' < (vm.modules.map Module.name).length := by simpa using hlt'
  have hname : (vm.modules.map Module.name)[m] = (vm.modules.map Module.name)[m'] := by
    simp [hget, hget']
  exact h.names.getElem_inj_iff.mp hname

/-- A module that has the name of a native module is native. -/
theorem Good.not_native {cfg : Config C} {vm : Vm} (h : Good cfg vm) {m : ℕ} {name : Name}
    {path : Path} {bs : List (Name × ℕ)} (hm : vm.modules[m]? = some ⟨name, .file path bs⟩) :
    name ∉ cfg.natives := by
  intro hnative
  obtain ⟨m', hm'⟩ := List.getElem?_of_mem (h.natives name hnative)
  obtain rfl := h.eq_of_name hm hm'
  simp [hm] at hm'

/-- The file that a module is made from is reached from the main program. -/
theorem Good.reach {cfg : Config C} {vm : Vm} (h : Good cfg vm) {m : ℕ} {name : Name}
    {path : Path} {bs : List (Name × ℕ)} (hm : vm.modules[m]? = some ⟨name, .file path bs⟩) :
    ∃ n, Reach cfg n path := by
  obtain ⟨file, ⟨⟨n, hreach⟩, himports⟩, hdenotes⟩ := h.origin m name path bs hm
  exact ⟨n + 1, .imported hreach himports hdenotes⟩

theorem Good.canonical {cfg : Config C} {vm : Vm} (h : Good cfg vm) {m : ℕ} {name : Name}
    {path : Path} {bs : List (Name × ℕ)} (hm : vm.modules[m]? = some ⟨name, .file path bs⟩) :
    ∃ file c, Site cfg file name ∧ cfg.fs.canonical path = some c ∧
      target cfg file name = some c := by
  obtain ⟨file, hsite, hdenotes⟩ := h.origin m name path bs hm
  obtain ⟨c, hc, htarget⟩ := denotes_canonical hdenotes
  exact ⟨file, c, hsite, hc, htarget⟩

theorem idxOf_lt_of_split {before after : List ℕ} {m k : ℕ}
    (hnodup : (before ++ m :: after).Nodup) (hk : k ∈ before) :
    (before ++ m :: after).idxOf k < (before ++ m :: after).idxOf m := by
  have hm : m ∉ before := fun hm =>
    (List.nodup_append.mp hnodup).2.2 m hm m List.mem_cons_self rfl
  rw [List.idxOf_append_of_mem hk, List.idxOf_append_of_notMem hm, List.idxOf_cons_self]
  exact Nat.lt_of_lt_of_le (List.idxOf_lt_length_of_mem hk) (Nat.le_add_right _ _)

/-- A module that an import statement of a module is bound to has been inserted before. -/
theorem Good.idxOf_lt {cfg : Config C} {vm : Vm} (h : Good cfg vm) {m : ℕ} {name : Name}
    {path : Path} {bs : List (Name × ℕ)} (hm : vm.modules[m]? = some ⟨name, .file path bs⟩)
    {b : Name × ℕ} (hb : b ∈ bs) : vm.order.idxOf b.2 < vm.order.idxOf m := by
  obtain ⟨before, after, horder⟩ := List.append_of_mem (h.order_file m name path bs hm)
  have hbefore := h.order_first before m after horder name path bs hm b hb
  have hnodup := h.order_nodup
  rw [horder] at hnodup ⊢
  exact idxOf_lt_of_split hnodup hbefore

/-- If a registered module's file imports another file, that file has a module too, and it
stands before. -/
theorem Good.edge {cfg : Config C} (hagree : NamesAgree cfg) {vm : Vm} (h : Good cfg vm)
    {m : ℕ} {name : Name} {path : Path} {bs : List (Name × ℕ)} {c d : C}
    (hm : vm.modules[m]? = some ⟨name, .file path bs⟩) (hc : cfg.fs.canonical path = some c)
    (hedge : Edge cfg c d) :
    ∃ m' name' path' bs', vm.modules[m']? = some ⟨name', .file path' bs'⟩ ∧
      cfg.fs.canonical path' = some d ∧ vm.order.idxOf m' < vm.order.idxOf m := by
  obtain ⟨file, specifier, hsite, hfile, htarget⟩ := hedge
  obtain ⟨text, htext, hnames, hholds⟩ := h.bindings m name path bs hm
  obtain ⟨textf, htextf, himport, hnative⟩ := hsite.2
  -- the two files are the same one, so their texts have the same import statements
  have hsame : textOf cfg file = textOf cfg path := by rw [textOf, textOf, hfile, hc]
  rw [unitText_eq_textOf hfile, hsame, htext] at htextf
  obtain rfl := Option.some.inj htextf
  have hsite' : Site cfg path specifier :=
    ⟨h.reach hm, text, by rw [unitText_eq_textOf hc, htext], himport, hnative⟩
  rw [← hnames] at himport
  obtain ⟨b, hb, rfl⟩ := List.mem_map.mp himport
  obtain ⟨source, hget⟩ := hholds b hb
  cases source with
  | native => exact absurd (h.native_name b.2 b.1 hget) hnative
  | file path' bs' =>
    obtain ⟨file', d', hsite'', hd', htarget'⟩ := h.canonical hget
    rw [hagree.target_eq file' file b.1 hsite'' hsite, htarget] at htarget'
    obtain rfl := Option.some.inj htarget'
    exact ⟨b.2, b.1, path', bs', hget, hd', h.idxOf_lt hm hb⟩

theorem Good.transGen {cfg : Config C} (hagree : NamesAgree cfg) {vm : Vm} (h : Good cfg vm)
    {c d : C} (hcd : Relation.TransGen (Edge cfg) c d) {m : ℕ} {name : Name} {path : Path}
    {bs : List (Name × ℕ)} (hm : vm.modules[m]? = some ⟨name, .file path bs⟩)
    (hc : cfg.fs.canonical path = some c) :
    ∃ m' name' path' bs', vm.modules[m']? = some ⟨name', .file path' bs'⟩ ∧
      cfg.fs.canonical path' = some d ∧ vm.order.idxOf m' < vm.order.idxOf m := by
  induction hcd with
  | single hedge => exact h.edge hagree hm hc hedge
  | tail _ hedge ih =>
    obtain ⟨m₁, name₁, path₁, bs₁, hget₁, hcanonical₁, hlt₁⟩ := ih
    obtain ⟨m₂, name₂, path₂, bs₂, hget₂, hcanonical₂, hlt₂⟩ :=
      h.edge hagree hget₁ hcanonical₁ hedge
    exact ⟨m₂, name₂, path₂, bs₂, hget₂, hcanonical₂, Nat.lt_trans hlt₂ hlt₁⟩

/-- There is one module for a file. -/
theorem Good.once {cfg : Config C} (hagree : NamesAgree cfg) {vm : Vm} (h : Good cfg vm)
    {m m' : ℕ} {name name' : Name} {path path' : Path} {bs bs' : List (Name × ℕ)} {c : C}
    (hm : vm.modules[m]? = some ⟨name, .file path bs⟩)
    (hm' : vm.modules[m']? = some ⟨name', .file path' bs'⟩)
    (hc : cfg.fs.canonical path = some c) (hc' : cfg.fs.canonical path' = some c) : m = m' := by
  obtain ⟨file, d, hsite, hd, htarget⟩ := h.canonical hm
  obtain ⟨file', d', hsite', hd', htarget'⟩ := h.canonical hm'
  rw [hc] at hd
  rw [hc'] at hd'
  obtain rfl := Option.some.inj hd
  obtain rfl := Option.some.inj hd'
  obtain rfl := hagree.name_eq file file' name name' c hsite hsite' htarget htarget'
  exact h.eq_of_name hm hm'

/-- A registered module's file does not import itself, however indirectly. -/
theorem Good.not_transGen {cfg : Config C} (hagree : NamesAgree cfg) {vm : Vm} (h : Good cfg vm)
    {m : ℕ} {name : Name} {path : Path} {bs : List (Name × ℕ)} {c : C}
    (hm : vm.modules[m]? = some ⟨name, .file path bs⟩) (hc : cfg.fs.canonical path = some c) :
    ¬ Relation.TransGen (Edge cfg) c c := by
  intro hcycle
  obtain ⟨m', name', path', bs', hget, hc', hlt⟩ := h.transGen hagree hcycle hm hc
  obtain rfl := h.once hagree hm hget hc hc'
  exact Nat.lt_irrefl _ hlt

end Njs.Modules
