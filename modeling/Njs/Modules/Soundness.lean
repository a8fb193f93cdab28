import Njs.Modules.Registry

/-!
# Where the registry of names is right

If specifiers name files consistently, the compilation of a program binds every import to the
module of its file, or fails for a reason that is in the files.
-/

namespace Njs.Modules

variable {C : Type}

/-- An import statement in a file has been compiled, or there is a reason why not. -/
def Served (cfg : Config C) (file : Path) (name : Name) (vm : Vm) :
    Except Failure (ℕ × Vm) → Prop
  | .ok (m, vm') => Good cfg vm' ∧ Grown cfg file vm vm' ∧ m ∈ vm'.order ∧ Holds vm' (name, m)
  | .error f => NamesAgree cfg → Deserved cfg f

/-- The import statements of a file have been compiled, or there is a reason why not. -/
def Parsed (cfg : Config C) (file : Path) (names : List Name) (vm : Vm) :
    Except Failure (List (Name × ℕ) × Vm) → Prop
  | .ok (bs, vm') => Good cfg vm' ∧ Grown cfg file vm vm' ∧ bs.map Prod.fst = names ∧
      ∀ b ∈ bs, b.2 ∈ vm'.order ∧ Holds vm' b
  | .error f => NamesAgree cfg → Deserved cfg f

theorem parseImports_parsed (cfg : Config C) (file : Path)
    (importStatement : Name → Vm → Except Failure (ℕ × Vm)) (names : List Name) {vm : Vm}
    (hserved : ∀ name ∈ names, ∀ vm, Good cfg vm →
      Served cfg file name vm (importStatement name vm)) (hgood : Good cfg vm) :
    Parsed cfg file names vm (parseImports importStatement names vm) := by
  induction names generalizing vm with
  | nil => exact ⟨hgood, Grown.refl cfg file vm, rfl, by simp⟩
  | cons name names ih =>
    have hfirst := hserved name List.mem_cons_self vm hgood
    rw [parseImports]
    cases hstep : importStatement name vm with
    | error f =>
      rw [hstep] at hfirst
      exact hfirst
    | ok r =>
      obtain ⟨m, vm₁⟩ := r
      rw [hstep] at hfirst
      obtain ⟨hgood₁, hgrown₁, hm₁, hholds₁⟩ := hfirst
      have hrest := ih (fun name hname => hserved name (List.mem_cons_of_mem _ hname)) hgood₁
      simp only [bind, Except.bind]
      cases hmore : parseImports importStatement names vm₁ with
      | error f =>
        rw [hmore] at hrest
        exact hrest
      | ok r =>
        obtain ⟨bs, vm₂⟩ := r
        rw [hmore] at hrest
        obtain ⟨hgood₂, hgrown₂, hnames₂, hbs₂⟩ := hrest
        refine ⟨hgood₂, hgrown₁.trans hgrown₂, by simp [hnames₂], fun b hb => ?_⟩
        rcases List.mem_cons.mp hb with rfl | hb
        · exact ⟨hgrown₂.order.subset hm₁, hholds₁.grown hgrown₂.modules⟩
        · exact hbs₂ b hb

/-- While the imports of a file are compiled, no module below it takes its name. -/
theorem name_unused {cfg : Config C} (hagree : NamesAgree cfg) {vm vm' : Vm} {file path : Path}
    {name : Name} (hgood : Good cfg vm) (hgood' : Good cfg vm') (hgrown : Grown cfg path vm vm')
    (hnew : name ∉ vm.modules.map Module.name) (hsite : Site cfg file name)
    (hdenotes : denotes cfg file name = some path) : name ∉ vm'.modules.map Module.name := by
  intro hmem
  obtain ⟨module, hmodule, hname⟩ := List.mem_map.mp hmem
  obtain ⟨m, hget⟩ := List.getElem?_of_mem hmodule
  have hm : vm.modules.length ≤ m := by
    by_contra hlt
    rw [getElem?_of_prefix_lt hgrown.modules (by omega)] at hget
    exact hnew (List.mem_map.mpr ⟨module, List.mem_of_getElem? hget, hname⟩)
  obtain ⟨name', source⟩ := module
  obtain rfl : name' = name := hname
  cases source with
  | native =>
    exact hnew (List.mem_map.mpr ⟨_, hgood.natives _ (hgood'.native_name m _ hget), rfl⟩)
  | file path' bs' =>
    obtain ⟨c, hc, htarget⟩ := denotes_canonical hdenotes
    obtain ⟨file', c', hsite', hc', htarget'⟩ := hgood'.canonical hget
    rw [hagree.target_eq file' file _ hsite' hsite, htarget] at htarget'
    obtain rfl := Option.some.inj htarget'
    -- the module that has the name is of the same file, and below it
    obtain ⟨d, hd, hbelow⟩ := hgrown.below m hm _ path' bs' hget c hc
    rw [hc'] at hd
    obtain rfl := Option.some.inj hd
    exact hgood'.not_transGen hagree hget hc' hbelow

theorem moduleAdd_eq {cfg : Config C} {vm : Vm} (hgood : Good cfg vm) {name : Name}
    (hfind : moduleFind vm name = none) (path : Path) (bs : List (Name × ℕ)) :
    (do
      let (m, vm) ← moduleAdd vm name (.file path bs)
      pure (m, moduleInsert vm m)) = .ok (vm.modules.length, addFile vm name path bs) := by
  have horder : vm.modules.length ∉ vm.order := fun h => Nat.lt_irrefl _ (hgood.order_lt _ h)
  simp [moduleAdd, hfind, moduleInsert, horder, addFile, bind, Except.bind, pure, Except.pure]

theorem Grown.addFile {cfg : Config C} {vm vm' : Vm} {file path : Path} {name : Name}
    (h : Grown cfg path vm vm') (hsite : Site cfg file name)
    (hdenotes : denotes cfg file name = some path) (bs : List (Name × ℕ)) :
    Grown cfg file vm (addFile vm' name path bs) where
  modules := h.modules.trans (addFile_modules vm' name path bs)
  order := h.order.trans (List.prefix_append _ _)
  below := by
    intro m hm name' path' bs' hget c hc
    obtain ⟨d, hd, htarget⟩ := denotes_canonical hdenotes
    have hedge : Edge cfg c d := ⟨file, name, hsite, hc, htarget⟩
    rcases addFile_get hget with hget | ⟨-, hmodule⟩
    · obtain ⟨e, he, hbelow⟩ := h.below m hm name' path' bs' hget d hd
      exact ⟨e, he, .head hedge hbelow⟩
    · simp only [Module.mk.injEq, Source.file.injEq] at hmodule
      obtain ⟨rfl, rfl, rfl⟩ := hmodule
      exact ⟨d, hd, .single hedge⟩

theorem importModule_served [DecidableEq C] {cfg : Config C} (hnamed : Named cfg)
    {moduleLambda : Path → Text → Vm → Except Failure (List (Name × ℕ) × Vm)} {file : Path}
    {name : Name} {vm : Vm} (hgood : Good cfg vm) (hfile : ∃ n, Reach cfg n file)
    (himport : ∃ text, unitText cfg file = some text ∧ name ∈ text.imports)
    (hlambda : ∀ path text, Site cfg file name → denotes cfg file name = some path →
      textOf cfg path = some text →
      Parsed cfg path text.imports vm (moduleLambda path text vm)) :
    Served cfg file name vm (importModule cfg moduleLambda file name vm) := by
  obtain ⟨n, hreach⟩ := hfile
  rw [importModule_eq cfg hnamed moduleLambda (hreach.ne_nil hnamed)]
  cases hfind : moduleFind vm name with
  | some m =>
    obtain ⟨source, hget⟩ := moduleFind_some hfind
    have hm : m < vm.modules.length := (List.getElem?_eq_some_iff.mp hget).1
    have hmodules := moduleInsert_modules vm m
    refine ⟨hgood.insert hm, ⟨?_, moduleInsert_order vm m, ?_⟩, mem_moduleInsert_order vm m, source,
      by rw [hmodules, hget]⟩
    · exact hmodules.symm ▸ List.prefix_rfl
    · intro k hk name path bs hget
      rw [hmodules, List.getElem?_eq_none hk] at hget
      exact absurd hget (by simp)
  | none =>
    have hnew := moduleFind_none hfind
    have hnative : name ∉ cfg.natives := fun h =>
      hnew (List.mem_map.mpr ⟨_, hgood.natives name h, rfl⟩)
    obtain ⟨textf, htextf, hname⟩ := himport
    have hsite : Site cfg file name := ⟨⟨n, hreach⟩, textf, htextf, hname, hnative⟩
    cases hdenotes : denotes cfg file name with
    | none => exact fun _ => ⟨file, hsite, hdenotes⟩
    | some path =>
      cases htext : textOf cfg path with
      | none =>
        simp only [htext]
        exact fun _ => ⟨file, path, hsite, hdenotes, htext⟩
      | some text =>
        simp only [htext]
        split_ifs with hself
        · exact fun _ => ⟨file, path, hsite, hdenotes, hself⟩
        · have hparsed := hlambda path text hsite hdenotes htext
          cases hstep : moduleLambda path text vm with
          | error f =>
            rw [hstep] at hparsed
            exact hparsed
          | ok r =>
            obtain ⟨bs, vm'⟩ := r
            rw [hstep] at hparsed
            obtain ⟨hgood', hgrown, hnames, hbs⟩ := hparsed
            cases hfind' : moduleFind vm' name with
            | some m =>
              obtain ⟨source, hget⟩ := moduleFind_some hfind'
              simp only [bind, Except.bind, moduleAdd, hfind']
              intro hagree
              exact name_unused hagree hgood hgood' hgrown hnew hsite hdenotes
                (List.mem_map.mpr ⟨_, List.mem_of_getElem? hget, rfl⟩)
            | none =>
              have hadd := moduleAdd_eq hgood' hfind' path bs
              simp only [bind, Except.bind] at hadd ⊢
              rw [hadd]
              exact ⟨hgood'.addFile (moduleFind_none hfind') hsite hdenotes htext hnames hbs,
                hgrown.addFile hsite hdenotes bs,
                List.mem_append_right _ (List.mem_singleton_self _), .file path bs,
                by simp [addFile]⟩

/-- `njs_parser_module` compiles an import statement as it should be, or fails for a reason. -/
theorem parserModule_served [DecidableEq C] {cfg : Config C} (hnamed : Named cfg) (depth : ℕ)
    {n : ℕ} (hdepth : n + depth = maxNesting) {file : Path}
    (hfile : Reach cfg n file) {name : Name} {vm : Vm} (hgood : Good cfg vm)
    (himport : ∃ text, unitText cfg file = some text ∧ name ∈ text.imports) :
    Served cfg file name vm (parserModule cfg depth file name vm) := by
  induction depth generalizing n file name vm with
  | zero =>
    refine importModule_served hnamed hgood ⟨n, hfile⟩ himport ?_
    intro path text hsite hdenotes htext
    -- the text of a module at the greatest depth is not compiled
    obtain rfl : n = maxNesting := hdepth
    exact fun _ => ⟨path, hfile.imported hsite.2 hdenotes⟩
  | succ depth ih =>
    refine importModule_served hnamed hgood ⟨n, hfile⟩ himport ?_
    intro path text hsite hdenotes htext
    have hpath : Reach cfg (n + 1) path := hfile.imported hsite.2 hdenotes
    obtain ⟨c, hc, -⟩ := denotes_canonical hdenotes
    have hunit : unitText cfg path = some text := by rw [unitText_eq_textOf hc, htext]
    have hparsed := parseImports_parsed cfg path (parserModule cfg depth path) text.imports
      (fun name hname vm hgood => ih (by omega) hpath hgood ⟨text, hunit, hname⟩) hgood
    cases hstep : parseImports (parserModule cfg depth path) text.imports vm with
    | error f =>
      rw [hstep] at hparsed
      simpa only [hstep, bind, Except.bind] using hparsed
    | ok r =>
      rw [hstep] at hparsed
      simp only [bind, Except.bind]
      split_ifs with hlegal
      · exact hparsed
      · refine fun _ => .inr ⟨n, path, text, hpath, htext, ?_⟩
        simpa [← hdepth] using hlegal

/-! ### The whole program -/

section

variable {cfg : Config C} {vm : Vm} {bindings : List (Name × ℕ)}

/-- The file that an import statement denotes has a module, if the main program's imports
are bound. -/
theorem Good.served (hagree : NamesAgree cfg) (h : Good cfg vm)
    (hnames : bindings.map Prod.fst = cfg.mainText.imports)
    (hbound : ∀ b ∈ bindings, Holds vm b) {n : ℕ} {file : Path} (hfile : Reach cfg n file) :
    ∀ name c, Imports cfg file name → target cfg file name = some c →
      ∃ (m : ℕ) (name' : Name) (path : Path) (bs : List (Name × ℕ)),
        vm.modules[m]? = some ⟨name', .file path bs⟩ ∧ cfg.fs.canonical path = some c := by
  induction hfile with
  | main =>
    intro name c himports htarget
    obtain ⟨text, htext, hname, hnative⟩ := himports
    obtain rfl : cfg.mainText = text := by simpa [unitText] using htext
    have hsite : Site cfg cfg.main name := ⟨⟨0, .main⟩, cfg.mainText, htext, hname, hnative⟩
    rw [← hnames] at hname
    obtain ⟨b, hb, rfl⟩ := List.mem_map.mp hname
    obtain ⟨source, hget⟩ := hbound b hb
    cases source with
    | native => exact absurd (h.native_name b.2 b.1 hget) hnative
    | file path bs =>
      obtain ⟨file', d, hsite', hd, htarget'⟩ := h.canonical hget
      rw [hagree.target_eq file' cfg.main b.1 hsite' hsite, htarget] at htarget'
      obtain rfl := Option.some.inj htarget'
      exact ⟨b.2, b.1, path, bs, hget, hd⟩
  | imported hfile himports hdenotes ih =>
    intro name c himports' htarget
    obtain ⟨d, hd, htarget'⟩ := denotes_canonical hdenotes
    obtain ⟨m, name', path, bs, hget, hpath⟩ := ih _ d himports htarget'
    obtain ⟨m', name'', path', bs', hget', hpath', -⟩ := h.edge hagree hget hpath
      ⟨_, name, ⟨⟨_, hfile.imported himports hdenotes⟩, himports'⟩, hd, htarget⟩
    exact ⟨m', name'', path', bs', hget', hpath'⟩

theorem Good.acyclic (hagree : NamesAgree cfg) (h : Good cfg vm)
    (hnames : bindings.map Prod.fst = cfg.mainText.imports)
    (hbound : ∀ b ∈ bindings, Holds vm b) (c : C) : ¬ Relation.TransGen (Edge cfg) c c := by
  intro hcycle
  obtain ⟨d, -, file, name, hsite, -, htarget⟩ := Relation.TransGen.tail'_iff.mp hcycle
  obtain ⟨⟨n, hfile⟩, himports⟩ := hsite
  obtain ⟨m, name', path, bs, hget, hc⟩ :=
    h.served hagree hnames hbound hfile name c himports htarget
  exact h.not_transGen hagree hget hc hcycle

theorem Good.boundRight (hagree : NamesAgree cfg) (h : Good cfg vm) {n : ℕ} {file : Path}
    (hfile : Reach cfg n file) {text : Text} (htext : unitText cfg file = some text)
    {b : Name × ℕ} (hname : b.1 ∈ text.imports) (hb : Holds vm b) :
    BoundRight cfg vm file b := by
  obtain ⟨source, hget⟩ := hb
  refine ⟨_, hget, ?_⟩
  cases source with
  | native => exact ⟨h.native_name b.2 b.1 hget, rfl⟩
  | file path bs =>
    have hnative := h.not_native hget
    obtain ⟨file', c, hsite', hc, htarget⟩ := h.canonical hget
    have hsite : Site cfg file b.1 := ⟨⟨n, hfile⟩, text, htext, hname, hnative⟩
    exact ⟨hnative, c, hc, by rw [hagree.target_eq file file' b.1 hsite hsite', htarget]⟩

/-- The modules that are evaluated are the first ones of those that were inserted. -/
theorem moduleLoad_isPrefix (throws : ℕ → Bool) (order : List ℕ) :
    moduleLoad throws order <+: order := by
  induction order with
  | nil => exact List.prefix_rfl
  | cons m rest ih =>
    rw [moduleLoad]
    split_ifs
    · exact ⟨rest, rfl⟩
    · exact List.cons_prefix_cons.mpr ⟨rfl, ih⟩

theorem moduleLoad_all (order : List ℕ) : moduleLoad (fun _ => false) order = order := by
  induction order with
  | nil => rfl
  | cons m rest ih => simp [moduleLoad, ih]

theorem ImportsFirst.of_prefix {order order' : List ℕ} (h : ImportsFirst vm order)
    (hpre : order' <+: order) : ImportsFirst vm order' := by
  obtain ⟨rest, rfl⟩ := hpre
  rintro before m after rfl
  exact h before m (after ++ rest) (by simp)

theorem Good.right (hagree : NamesAgree cfg) (h : Good cfg vm)
    (hnames : bindings.map Prod.fst = cfg.mainText.imports)
    (hbound : ∀ b ∈ bindings, b.2 ∈ vm.order ∧ Holds vm b) : Right cfg bindings vm where
  main_names := hnames
  main_bound := by
    intro b hb
    have htext : unitText cfg cfg.main = some cfg.mainText := by simp [unitText]
    refine h.boundRight hagree .main htext ?_ (hbound b hb).2
    rw [← hnames]
    exact List.mem_map_of_mem hb
  module_names := by
    intro m name path bs hget
    obtain ⟨text, htext, hnames, -⟩ := h.bindings m name path bs hget
    exact ⟨text, htext, hnames⟩
  module_bound := by
    intro m name path bs hget b hb
    obtain ⟨text, htext, hnames, hholds⟩ := h.bindings m name path bs hget
    obtain ⟨n, hreach⟩ := h.reach hget
    obtain ⟨-, c, -, hc, -⟩ := h.canonical hget
    refine h.boundRight hagree hreach (by rw [unitText_eq_textOf hc, htext]) ?_ (hholds b hb)
    rw [← hnames]
    exact List.mem_map_of_mem hb
  once := by
    intro m m' name name' path path' bs bs' c hget hget' hc hc'
    exact h.once hagree hget hget' hc hc'
  evaluated_nodup := fun throws =>
    h.order_nodup.sublist (moduleLoad_isPrefix throws vm.order).sublist
  evaluated_first := fun throws => h.order_first.of_prefix (moduleLoad_isPrefix throws vm.order)
  evaluated_main := by
    intro b hb
    rw [moduleLoad_all]
    exact (hbound b hb).1
  evaluated_module := by
    intro m name path bs hget
    rw [moduleLoad_all]
    exact h.order_file m name path bs hget
  acyclic := h.acyclic hagree hnames fun b hb => (hbound b hb).2

end

/-- Whatever the files are called, a compilation that ends without an error has bound all
imports of the main program, in a registry that keeps the invariant. -/
theorem compile_parsed [DecidableEq C] (cfg : Config C) (hnamed : Named cfg) :
    Parsed cfg cfg.main cfg.mainText.imports (initialVm cfg) (compile cfg) := by
  have htext : unitText cfg cfg.main = some cfg.mainText := by simp [unitText]
  have hparsed := parseImports_parsed cfg cfg.main (parserModule cfg maxNesting cfg.main)
    cfg.mainText.imports (fun name hname vm hgood =>
      parserModule_served hnamed maxNesting (Nat.zero_add _) .main hgood
        ⟨cfg.mainText, htext, hname⟩) (initialVm_good cfg)
  unfold compile
  cases hstep : parseImports (parserModule cfg maxNesting cfg.main) cfg.mainText.imports
      (initialVm cfg) with
  | error f =>
    rw [hstep] at hparsed
    exact hparsed
  | ok r =>
    rw [hstep] at hparsed
    simp only [bind, Except.bind]
    cases hlegal : cfg.mainText.legal 0 with
    | false => exact fun _ => .inl hlegal
    | true => exact hparsed

/-! ### Where it is wrong -/

/-- A specifier denotes the same file in the texts of two names of a file. -/
def OneDirectory (cfg : Config C) : Prop :=
  ∀ n n' file file' name, Reach cfg n file → Reach cfg n' file' →
    (cfg.fs.canonical file).isSome → cfg.fs.canonical file = cfg.fs.canonical file' →
    target cfg file name = target cfg file' name

section

variable {cfg : Config C} {vm : Vm} {bindings : List (Name × ℕ)}

theorem served_of_boundRight {file : Path} {b : Name × ℕ} (hnative : b.1 ∉ cfg.natives)
    (hholds : Holds vm b) (hright : BoundRight cfg vm file b) :
    ∃ (m : ℕ) (path : Path) (bs : List (Name × ℕ)) (c : C),
      vm.modules[m]? = some ⟨b.1, .file path bs⟩ ∧ cfg.fs.canonical path = some c ∧
        target cfg file b.1 = some c := by
  obtain ⟨source, hget⟩ := hholds
  obtain ⟨module, hget', hsource⟩ := hright
  rw [hget] at hget'
  obtain rfl := Option.some.inj hget'
  cases source with
  | native => exact absurd hsource.1 hnative
  | file path bs =>
    obtain ⟨-, c, hc, htarget⟩ := hsource
    exact ⟨b.2, path, bs, c, hget, hc, htarget⟩

/-- In a right compilation, an import statement of a file that is reached has a module under
its specifier, which is of the file that it denotes there. -/
theorem Right.served (hone : OneDirectory cfg) (h : Good cfg vm) (hright : Right cfg bindings vm)
    (hbound : ∀ b ∈ bindings, Holds vm b) {n : ℕ} {file : Path} (hfile : Reach cfg n file) :
    ∀ name, Imports cfg file name →
      ∃ (m : ℕ) (path : Path) (bs : List (Name × ℕ)) (c : C),
        vm.modules[m]? = some ⟨name, .file path bs⟩ ∧ cfg.fs.canonical path = some c ∧
          target cfg file name = some c := by
  induction hfile with
  | main =>
    intro name himports
    obtain ⟨text, htext, hname, hnative⟩ := himports
    obtain rfl : cfg.mainText = text := by simpa [unitText] using htext
    rw [← hright.main_names] at hname
    obtain ⟨b, hb, rfl⟩ := List.mem_map.mp hname
    exact served_of_boundRight hnative (hbound b hb) (hright.main_bound b hb)
  | @imported n file path name hfile himports hdenotes ih =>
    intro name' himports'
    obtain ⟨m, path₁, bs, c, hget, hc, htarget⟩ := ih name himports
    obtain ⟨d, hd, htarget'⟩ := denotes_canonical hdenotes
    rw [htarget] at htarget'
    obtain rfl := Option.some.inj htarget'
    -- the module of the file was made for another name of it, perhaps
    obtain ⟨n₁, hreach₁⟩ := h.reach hget
    have hsame := hone (n + 1) n₁ path path₁ name' (hfile.imported himports hdenotes) hreach₁
      (by rw [hd]; rfl) (by rw [hd, hc])
    obtain ⟨text, htext, hnames, hholds⟩ := h.bindings m name path₁ bs hget
    obtain ⟨text', htext', hname, hnative⟩ := himports'
    rw [unitText_eq_textOf hd, textOf, hd, ← hc, ← textOf, htext] at htext'
    obtain rfl := Option.some.inj htext'
    rw [← hnames] at hname
    obtain ⟨b, hb, rfl⟩ := List.mem_map.mp hname
    have hserved := served_of_boundRight hnative (hholds b hb)
      (hright.module_bound m name path₁ bs hget b hb)
    rwa [← hsame] at hserved

theorem Right.namesAgree (hone : OneDirectory cfg) (h : Good cfg vm)
    (hright : Right cfg bindings vm) (hbound : ∀ b ∈ bindings, Holds vm b) : NamesAgree cfg where
  target_eq := by
    rintro file file' name ⟨⟨n, hfile⟩, himports⟩ ⟨⟨n', hfile'⟩, himports'⟩
    obtain ⟨m, path, bs, c, hget, hc, htarget⟩ :=
      hright.served hone h hbound hfile name himports
    obtain ⟨m', path', bs', c', hget', hc', htarget'⟩ :=
      hright.served hone h hbound hfile' name himports'
    obtain rfl := h.eq_of_name hget hget'
    rw [hget] at hget'
    obtain ⟨rfl, rfl⟩ : path = path' ∧ bs = bs' := by simpa using hget'
    rw [htarget, htarget', ← hc, hc']
  name_eq := by
    rintro file file' name name' c ⟨⟨n, hfile⟩, himports⟩ ⟨⟨n', hfile'⟩, himports'⟩ htarget htarget'
    obtain ⟨m, path, bs, d, hget, hd, htargetd⟩ :=
      hright.served hone h hbound hfile name himports
    obtain ⟨m', path', bs', d', hget', hd', htargetd'⟩ :=
      hright.served hone h hbound hfile' name' himports'
    rw [htargetd] at htarget
    rw [htargetd'] at htarget'
    obtain rfl := hright.once m m' name name' path path' bs bs' c hget hget'
      (hd.trans htarget) (hd'.trans htarget')
    rw [hget] at hget'
    exact (by simpa using hget' : name = name' ∧ path = path' ∧ bs = bs').1

end

/-- If specifiers name files consistently, then the compilation of a program ends, with all
imports bound to the right modules and each of these evaluated once after those that it
imports, or with an error for which there is a reason. And if it ends without an error, all
this holds only if specifiers name files consistently. -/
theorem compile_loads_iff_namesAgree [DecidableEq C] (cfg : Config C) (hnamed : Named cfg) :
    (NamesAgree cfg → Loads cfg) ∧
      (OneDirectory cfg → ∀ r, compile cfg = .ok r → Loads cfg → NamesAgree cfg) := by
  have hparsed := compile_parsed cfg hnamed
  unfold Loads
  cases hcompile : compile cfg with
  | error f =>
    rw [hcompile] at hparsed
    exact ⟨hparsed, fun _ r hr => by simp at hr⟩
  | ok r =>
    obtain ⟨bindings, vm⟩ := r
    rw [hcompile] at hparsed
    obtain ⟨hgood, -, hnames, hbs⟩ := hparsed
    exact ⟨fun hagree => hgood.right hagree hnames hbs,
      fun hone _ _ hright => hright.namesAgree hone hgood fun b hb => (hbs b hb).2⟩

/-- An environment of a few files in which all names are canonical. -/
def fewFiles (main : Path) (mainText : Text) (files : List (Path × Text))
    (h : main ∉ files.map Prod.fst) : Config Path where
  fs :=
    { canonical := fun path => (files.lookup path).map fun _ => path
      text := fun path => files.lookup path }
  paths := []
  natives := []
  natives_nodup := List.nodup_nil
  sandbox := false
  main := main
  mainText := mainText
  text_main := by
    intro c hc
    have hnone : files.lookup main = none := List.lookup_eq_none_iff.mpr fun file hfile => by
      simpa using fun heq : main = file.1 => h (heq ▸ List.mem_map_of_mem hfile)
    simp [hnone] at hc

/-- A program `m` that imports `a/x` and `/l`, where `a/x` imports `/l`, too. -/
def sharedFile : Config Path :=
  fewFiles "m".toUTF8.toList ⟨["a/x".toUTF8.toList, "/l".toUTF8.toList], fun _ => true⟩
    [("./a/x".toUTF8.toList, ⟨["/l".toUTF8.toList], fun _ => true⟩),
      ("/l".toUTF8.toList, ⟨[], fun _ => true⟩)] (by decide +kernel)

/-- The import statements of `sharedFile`. -/
def sharedSites : List (Path × Name) :=
  [("m".toUTF8.toList, "a/x".toUTF8.toList), ("m".toUTF8.toList, "/l".toUTF8.toList),
    ("./a/x".toUTF8.toList, "/l".toUTF8.toList)]

theorem sharedFile_sites {file : Path} {name : Name} (h : Site sharedFile file name) :
    (file, name) ∈ sharedSites := by
  have hfiles : ∀ file ∈ ["m".toUTF8.toList, "./a/x".toUTF8.toList, "/l".toUTF8.toList],
      ∀ name ∈ ((unitText sharedFile file).map Text.imports).getD [],
        (file, name) ∈ sharedSites ∧ ∀ path ∈ denotes sharedFile file name,
          path ∈ ["m".toUTF8.toList, "./a/x".toUTF8.toList, "/l".toUTF8.toList] := by
    decide +kernel
  have himported {file : Path} {name : Name} (himports : Imports sharedFile file name) :
      name ∈ ((unitText sharedFile file).map Text.imports).getD [] := by
    obtain ⟨text, htext, hname, -⟩ := himports
    simpa [htext] using hname
  obtain ⟨⟨n, hreach⟩, himports⟩ := h
  have hfile : file ∈ ["m".toUTF8.toList, "./a/x".toUTF8.toList, "/l".toUTF8.toList] := by
    clear himports
    induction hreach with
    | main => exact List.mem_cons_self
    | imported _ himports hdenotes ih =>
      exact (hfiles _ ih _ (himported himports)).2 _ hdenotes
  exact (hfiles file hfile name (himported himports)).1

/-- The compilation of `sharedFile` binds both imports of `/l` to one module. -/
theorem sharedFile_loads :
    compile sharedFile =
      .ok ([("a/x".toUTF8.toList, 1), ("/l".toUTF8.toList, 0)],
        { modules :=
            [⟨"/l".toUTF8.toList, .file "/l".toUTF8.toList []⟩,
              ⟨"a/x".toUTF8.toList, .file "./a/x".toUTF8.toList [("/l".toUTF8.toList, 0)]⟩]
          order := [0, 1] }) ∧ Loads sharedFile := by
  have hnamed : Named sharedFile := ⟨by decide +kernel, fun path hpath => absurd hpath
    (by simp [sharedFile, fewFiles])⟩
  have hagree : ∀ s ∈ sharedSites, ∀ s' ∈ sharedSites,
      s.2 = s'.2 ↔ target sharedFile s.1 s.2 = target sharedFile s'.1 s'.2 := by decide +kernel
  refine ⟨by decide +kernel, (compile_loads_iff_namesAgree sharedFile hnamed).1 ⟨?_, ?_⟩⟩
  · intro file file' name h h'
    exact (hagree _ (sharedFile_sites h) _ (sharedFile_sites h')).mp rfl
  · intro file file' name name' c h h' hc hc'
    exact (hagree _ (sharedFile_sites h) _ (sharedFile_sites h')).mpr (hc.trans hc'.symm)

/-- A program `m` that imports `a/x` and `b/x`, which import `c` from their own directories. -/
def sharedSpecifier : Config Path :=
  fewFiles "m".toUTF8.toList ⟨["a/x".toUTF8.toList, "b/x".toUTF8.toList], fun _ => true⟩
    [("./a/x".toUTF8.toList, ⟨["c".toUTF8.toList], fun _ => true⟩),
      ("./b/x".toUTF8.toList, ⟨["c".toUTF8.toList], fun _ => true⟩),
      ("./a/c".toUTF8.toList, ⟨[], fun _ => true⟩),
      ("./b/c".toUTF8.toList, ⟨[], fun _ => true⟩)] (by decide +kernel)

/-- The import in `b/x` is bound to the module of `a/c`. -/
theorem sharedSpecifier_not_loads :
    compile sharedSpecifier =
      .ok ([("a/x".toUTF8.toList, 1), ("b/x".toUTF8.toList, 2)],
        { modules :=
            [⟨"c".toUTF8.toList, .file "./a/c".toUTF8.toList []⟩,
              ⟨"a/x".toUTF8.toList, .file "./a/x".toUTF8.toList [("c".toUTF8.toList, 0)]⟩,
              ⟨"b/x".toUTF8.toList, .file "./b/x".toUTF8.toList [("c".toUTF8.toList, 0)]⟩]
          order := [0, 1, 2] }) ∧ ¬ Loads sharedSpecifier := by
  have hcompile : compile sharedSpecifier =
      .ok ([("a/x".toUTF8.toList, 1), ("b/x".toUTF8.toList, 2)],
        { modules :=
            [⟨"c".toUTF8.toList, .file "./a/c".toUTF8.toList []⟩,
              ⟨"a/x".toUTF8.toList, .file "./a/x".toUTF8.toList [("c".toUTF8.toList, 0)]⟩,
              ⟨"b/x".toUTF8.toList, .file "./b/x".toUTF8.toList [("c".toUTF8.toList, 0)]⟩]
          order := [0, 1, 2] }) := by decide +kernel
  refine ⟨hcompile, fun hloads => ?_⟩
  rw [Loads, hcompile] at hloads
  obtain ⟨module, hget, hsource⟩ := hloads.module_bound 2 _ _ _ rfl _ List.mem_cons_self
  obtain rfl := Option.some.inj hget
  obtain ⟨-, c, hc, htarget⟩ := hsource
  rw [← hc] at htarget
  revert htarget
  decide +kernel

end Njs.Modules
