import OpenAPT.ConfigLoad

/-! The order in which a filesystem enumerates its directories, and what `loadFromDir` makes of it. -/
namespace OpenAPT.ConfigManager

/-- The same directory, its entries and those of the directories below it in any other order. -/
inductive SameEntries : List DirEntry → List DirEntry → Prop
  | nil : SameEntries [] []
  | cons (e : DirEntry) {es fs : List DirEntry} (h : SameEntries es fs) :
    SameEntries (e :: es) (e :: fs)
  | directory (name : Bytes) (contents : FileContents) {ds gs es fs : List DirEntry}
    (hentries : SameEntries ds gs) (h : SameEntries es fs) :
    SameEntries (.directory name contents ds :: es) (.directory name contents gs :: fs)
  | swap (e f : DirEntry) (es : List DirEntry) : SameEntries (f :: e :: es) (e :: f :: es)
  | trans {es fs gs : List DirEntry} (h : SameEntries es fs) (h' : SameEntries fs gs) :
    SameEntries es gs

/-- In every directory that is visited, two entries loaded into an empty configuration give the
same one after the other in both orders. -/
inductive OrderFree : Bytes → List DirEntry → Prop
  | intro {dir_path : Bytes} {es : List DirEntry}
    (pairs : es.Pairwise fun e f =>
      (loadFromDir ⟨.null⟩ dir_path [e, f] true).2 = (loadFromDir ⟨.null⟩ dir_path [f, e] true).2)
    (subdirectories : ∀ e ∈ es, extension e.name ≠ bytes ".json" →
      OrderFree (join dir_path e.name) e.entries) :
    OrderFree dir_path es

namespace SameEntries

theorem refl (es : List DirEntry) : SameEntries es es := by
  induction es with
  | nil => exact nil
  | cons e es ih => exact ih.cons e

theorem of_perm {es fs : List DirEntry} (h : es.Perm fs) : SameEntries es fs := by
  induction h with
  | nil => exact nil
  | cons e _ ih => exact ih.cons e
  | swap e f es => exact swap e f es
  | trans _ _ ih ih' => exact ih.trans ih'

theorem append_left (rest : List DirEntry) {es fs : List DirEntry} (h : SameEntries es fs) :
    SameEntries (rest ++ es) (rest ++ fs) := by
  induction rest with
  | nil => exact h
  | cons e rest ih => exact ih.cons e

/-- What a directory listing shows is only reordered. -/
theorem listing_perm {es fs : List DirEntry} (h : SameEntries es fs) :
    (es.map fun e => (e.name, e.contents)).Perm (fs.map fun e => (e.name, e.contents)) := by
  induction h with
  | nil => exact List.Perm.refl _
  | cons e _ ih => exact ih.cons _
  | directory name contents _ _ _ ih => exact ih.cons (name, contents)
  | swap e f es => exact List.Perm.swap _ _ _
  | trans _ _ ih ih' => exact ih.trans ih'

theorem names_perm {es fs : List DirEntry} (h : SameEntries es fs) :
    (es.map DirEntry.name).Perm (fs.map DirEntry.name) := by
  have hlisting := h.listing_perm.map Prod.fst
  rw [List.map_map, List.map_map] at hlisting
  exact hlisting

theorem configFile_eq {es fs : List DirEntry} (h : SameEntries es fs) (hes : JsonTree es) :
    configFile es = configFile fs := by
  apply KeyedList.find?_of_perm h.listing_perm
  cases hes with
  | intro names _ _ =>
    rw [List.map_map]
    exact names

end SameEntries

theorem SameEntries.jsonTree {es fs : List DirEntry} (h : SameEntries es fs) (hes : JsonTree es) :
    JsonTree fs := by
  induction h with
  | nil => exact hes
  | cons e h ih =>
    rw [jsonTree_cons] at hes ⊢
    obtain ⟨hname, hreadable, hentries, hrest⟩ := hes
    exact ⟨fun hmem => hname (h.names_perm.mem_iff.mpr hmem), hreadable, hentries, ih hrest⟩
  | directory name contents hentries h ihentries ih =>
    rw [jsonTree_cons] at hes ⊢
    obtain ⟨hname, hreadable, hds, hrest⟩ := hes
    exact ⟨fun hmem => hname (h.names_perm.mem_iff.mpr hmem), hreadable, ihentries hds, ih hrest⟩
  | swap e f es =>
    rw [jsonTree_cons, jsonTree_cons] at hes ⊢
    obtain ⟨hf, hfread, hfentries, he, heread, heentries, hes⟩ := hes
    rw [List.map_cons, List.mem_cons, not_or] at hf ⊢
    exact ⟨⟨hf.1 ∘ Eq.symm, he⟩, heread, heentries, hf.2, hfread, hfentries, hes⟩
  | trans _ _ ih ih' => exact ih' (ih hes)

/-- Patches that give the same configuration from every one. -/
def Agree (l l' : List Json) : Prop :=
  ∀ config : ConfigManager, config.config_.Ordered → mergeAll config l = mergeAll config l'

theorem ordered_mergeAll {config : ConfigManager} (h : config.config_.Ordered) (l : List Json) :
    (mergeAll config l).config_.Ordered := by
  induction l generalizing config with
  | nil => exact h
  | cons p l ih =>
    have hnext : (ConfigManager.mk (config.config_.mergePatch p)).config_.Ordered := h.mergePatch p
    exact ih hnext

theorem Agree.append {l l' r r' : List Json} (h : Agree l l') (h' : Agree r r') :
    Agree (l ++ r) (l' ++ r') := by
  intro config hconfig
  rw [mergeAll_append, mergeAll_append, h config hconfig]
  exact h' _ (ordered_mergeAll hconfig l')

/-- Whether two orders of patches give the same does not depend on the configuration. -/
theorem agree_of_perm {l l' : List Json} (hperm : l.Perm l') (hl : Objects l)
    {config : ConfigManager} (hconfig : config.config_.Ordered)
    (h : mergeAll config l = mergeAll config l') : Agree l l' := by
  intro other hother
  have hnull := hl.ne_null
  have hnull' : ∀ p ∈ l', p ≠ .null := fun p hp => hnull p (hperm.mem_iff.mpr hp)
  have hsome {j : Json} (hj : j.Ordered) : ∀ i ∈ some j, Json.Ordered i := by
    intro i hi
    obtain rfl := Option.some.inj hi
    exact hj
  have hfold := Json.foldl_patchMember_of_perm hperm (hsome hconfig) (hsome hother)
  rw [Json.foldl_patchMember_some hnull, Json.foldl_patchMember_some hnull',
    Json.foldl_patchMember_some hnull, Json.foldl_patchMember_some hnull'] at hfold
  have hconfigs := congrArg ConfigManager.config_ h
  exact congrArg ConfigManager.mk (Option.some.inj (hfold (congrArg some hconfigs)))

theorem patches_append (dir_path : Bytes) (es fs : List DirEntry) :
    patches dir_path (es ++ fs) = patches dir_path es ++ patches dir_path fs := by
  induction es with
  | nil => rfl
  | cons e es ih => rw [List.cons_append, patches, ih, patches, List.append_assoc]

theorem JsonTree.of_sublist {es fs : List DirEntry} (hes : JsonTree es) (h : List.Sublist fs es) :
    JsonTree fs := by
  cases hes with
  | intro names readable subdirectories =>
    refine ⟨names.sublist (h.map DirEntry.name), ?_, ?_⟩
    · exact fun e he => readable e (h.subset he)
    · exact fun e he => subdirectories e (h.subset he)

/-- The two orders of a pair, as lists of patches. -/
theorem pair_iff {es : List DirEntry} (hes : JsonTree es) {e f : DirEntry}
    (h : List.Sublist [e, f] es) (dir_path : Bytes) :
    (loadFromDir ⟨.null⟩ dir_path [e, f] true).2 = (loadFromDir ⟨.null⟩ dir_path [f, e] true).2 ↔
      Agree (entryPatches dir_path e ++ entryPatches dir_path f)
        (entryPatches dir_path f ++ entryPatches dir_path e) := by
  have hpair := hes.of_sublist h
  have hswap : JsonTree [f, e] := (SameEntries.swap f e []).jsonTree hpair
  have hpatches (a b : DirEntry) :
      patches dir_path [a, b] = entryPatches dir_path a ++ entryPatches dir_path b := by
    rw [patches, patches, patches, List.append_nil]
  have hnull : Json.Ordered .null := .leaf nofun
  rw [loadFromDir_eq hpair, loadFromDir_eq hswap, hpatches e f, hpatches f e]
  constructor
  · intro heq
    apply agree_of_perm List.perm_append_comm _ hnull heq
    rw [← hpatches e f]
    exact objects_patches dir_path [e, f]
  · intro hagree
    exact hagree ⟨.null⟩ hnull

theorem orderFree_cons {e : DirEntry} {es : List DirEntry} (hes : JsonTree (e :: es))
    {dir_path : Bytes} : OrderFree dir_path (e :: es) ↔
      (∀ f ∈ es, Agree (entryPatches dir_path e ++ entryPatches dir_path f)
        (entryPatches dir_path f ++ entryPatches dir_path e)) ∧
      (extension e.name ≠ bytes ".json" → OrderFree (join dir_path e.name) e.entries) ∧
      OrderFree dir_path es := by
  have hpair {f : DirEntry} (hf : f ∈ es) :=
    pair_iff hes ((List.singleton_sublist.mpr hf).cons_cons e) dir_path
  constructor
  · intro h
    cases h with
    | intro pairs subdirectories =>
      rw [List.pairwise_cons] at pairs
      rw [List.forall_mem_cons] at subdirectories
      exact ⟨fun f hf => (hpair hf).mp (pairs.1 f hf), subdirectories.1, pairs.2, subdirectories.2⟩
  · intro ⟨hfirst, hentries, hrest⟩
    cases hrest with
    | intro pairs subdirectories =>
      refine ⟨List.pairwise_cons.mpr ⟨fun f hf => (hpair hf).mpr (hfirst f hf), pairs⟩, ?_⟩
      exact List.forall_mem_cons.mpr ⟨hentries, subdirectories⟩

theorem Agree.refl (l : List Json) : Agree l l := fun _ _ => Eq.refl _

theorem Agree.trans {l l' l'' : List Json} (h : Agree l l') (h' : Agree l' l'') : Agree l l'' :=
  fun config hconfig => (h config hconfig).trans (h' config hconfig)

theorem Agree.symm {l l' : List Json} (h : Agree l l') : Agree l' l :=
  fun config hconfig => (h config hconfig).symm

/-- What reordering a directory keeps: it stays free of order, its patches agree, and each of its
entries agrees with one there was. -/
structure Reordered (dir_path : Bytes) (es fs : List DirEntry) : Prop where
  orderFree : OrderFree dir_path fs
  patches : Agree (patches dir_path es) (ConfigManager.patches dir_path fs)
  entries : ∀ f ∈ fs, ∃ e ∈ es, Agree (entryPatches dir_path e) (entryPatches dir_path f)

/-- The step for a first entry that is replaced by one that agrees with it. -/
theorem Reordered.cons {dir_path : Bytes} {e f : DirEntry} {es fs : List DirEntry}
    (h : Reordered dir_path es fs) (hes : JsonTree (e :: es)) (hfs : JsonTree (f :: fs))
    (hfree : OrderFree dir_path (e :: es))
    (hagree : Agree (entryPatches dir_path e) (entryPatches dir_path f))
    (hentries : extension f.name ≠ bytes ".json" → OrderFree (join dir_path f.name) f.entries) :
    Reordered dir_path (e :: es) (f :: fs) := by
  obtain ⟨hcommute, -, -⟩ := (orderFree_cons hes).mp hfree
  constructor
  · refine (orderFree_cons hfs).mpr ⟨fun f' hf' => ?_, hentries, h.orderFree⟩
    obtain ⟨e', he', hagree'⟩ := h.entries f' hf'
    exact (hagree.append hagree').symm.trans ((hcommute e' he').trans (hagree'.append hagree))
  · rw [ConfigManager.patches, ConfigManager.patches]
    exact hagree.append h.patches
  · refine List.forall_mem_cons.mpr ⟨⟨e, List.mem_cons_self, hagree⟩, fun f' hf' => ?_⟩
    obtain ⟨e', he', hagree'⟩ := h.entries f' hf'
    exact ⟨e', List.mem_cons_of_mem e he', hagree'⟩

theorem SameEntries.reordered {es fs : List DirEntry} (h : SameEntries es fs) {dir_path : Bytes}
    (hes : JsonTree es) (hfree : OrderFree dir_path es) : Reordered dir_path es fs := by
  induction h generalizing dir_path with
  | nil => exact ⟨hfree, Agree.refl _, fun f hf => absurd hf List.not_mem_nil⟩
  | cons e h ih =>
    obtain ⟨-, hentries, hrest⟩ := (orderFree_cons hes).mp hfree
    have htail := ih (jsonTree_cons.mp hes).2.2.2 hrest
    exact htail.cons hes ((h.cons e).jsonTree hes) hfree (Agree.refl _) hentries
  | @directory name contents ds gs es fs hds h ihds ih =>
    obtain ⟨-, hentries, hrest⟩ := (orderFree_cons hes).mp hfree
    obtain ⟨-, -, hjson, hesrest⟩ := jsonTree_cons.mp hes
    have htail := ih hesrest hrest
    have hbelow (hext : extension name ≠ bytes ".json") :
        Reordered (join dir_path name) ds gs := ihds hjson (hentries hext)
    apply htail.cons hes ((hds.directory name contents h).jsonTree hes) hfree
    · rw [entryPatches, entryPatches]
      split_ifs with hext
      · exact Agree.refl _
      · rw [hds.configFile_eq hjson]
        exact (Agree.refl _).append (hbelow hext).patches
    · exact fun hext => (hbelow hext).orderFree
  | swap e f es =>
    -- the two entries commute because the first one does with all behind it
    have hswapped := (SameEntries.swap e f es).jsonTree hes
    obtain ⟨hf, hfentries, hrest⟩ := (orderFree_cons hes).mp hfree
    obtain ⟨he, heentries, hes'⟩ := (orderFree_cons (jsonTree_cons.mp hes).2.2.2).mp hrest
    rw [List.forall_mem_cons] at hf
    constructor
    · rw [orderFree_cons hswapped, orderFree_cons (jsonTree_cons.mp hswapped).2.2.2,
        List.forall_mem_cons]
      exact ⟨⟨hf.1.symm, he⟩, heentries, hf.2, hfentries, hes'⟩
    · simp only [ConfigManager.patches, ← List.append_assoc]
      exact hf.1.append (Agree.refl _)
    · exact fun g hg => ⟨g, (List.Perm.swap e f es).mem_iff.mpr hg, Agree.refl _⟩
  | trans h h' ih ih' =>
    have hfirst := ih hes hfree
    have hsecond := ih' (h.jsonTree hes) hfirst.orderFree
    refine ⟨hsecond.orderFree, hfirst.patches.trans hsecond.patches, fun g hg => ?_⟩
    obtain ⟨f, hf, hfg⟩ := hsecond.entries g hg
    obtain ⟨e, he, hef⟩ := hfirst.entries f hf
    exact ⟨e, he, hef.trans hfg⟩

/-- If no order matters, none matters for the entries that are loaded last. -/
theorem mergeAll_last {config : ConfigManager} {dir_path : Bytes} {es rest l l' : List DirEntry}
    (h : ∀ fs, SameEntries es fs →
      mergeAll config (patches dir_path fs) = mergeAll config (patches dir_path es))
    (hperm : es.Perm (rest ++ l)) (hl : SameEntries l l') :
    mergeAll (mergeAll config (patches dir_path rest)) (patches dir_path l) =
      mergeAll (mergeAll config (patches dir_path rest)) (patches dir_path l') := by
  have hfirst := SameEntries.of_perm hperm
  rw [← mergeAll_append, ← mergeAll_append, ← patches_append, ← patches_append, h _ hfirst,
    h _ (hfirst.trans (hl.append_left rest))]

theorem orderFree_of_orders {es : List DirEntry} (hes : JsonTree es) {config : ConfigManager}
    (hconfig : config.config_.Ordered) {dir_path : Bytes}
    (h : ∀ fs, SameEntries es fs →
      mergeAll config (patches dir_path fs) = mergeAll config (patches dir_path es)) :
    OrderFree dir_path es := by
  induction hes generalizing config dir_path with
  | @intro es names readable subdirectories ih =>
    have hes : JsonTree es := .intro names readable subdirectories
    constructor
    · rw [List.pairwise_iff_forall_sublist]
      intro e f hpair
      -- the pair is moved to the end, where nothing is loaded over it
      obtain ⟨rest, hperm⟩ := hpair.exists_perm_append
      have hlast := mergeAll_last h (hperm.trans List.perm_append_comm) (SameEntries.swap f e [])
      rw [pair_iff hes hpair]
      simp only [patches, List.append_nil] at hlast
      exact agree_of_perm List.perm_append_comm
        ((objects_entryPatches dir_path e).append (objects_entryPatches dir_path f))
        (ordered_mergeAll hconfig _) hlast
    · intro e he hext
      cases e with
      | file name contents => exact .intro List.Pairwise.nil nofun
      | directory name contents ds =>
        -- so is the subdirectory, and its own entries then take any order
        obtain ⟨rest, hperm⟩ := (List.singleton_sublist.mpr he).exists_perm_append
        have hds : JsonTree ds := subdirectories _ he
        have hname : extension name ≠ bytes ".json" := hext
        apply ih _ he (ordered_mergeAll (ordered_mergeAll hconfig (patches dir_path rest))
          (configFilePatches dir_path name (configFile ds)))
        intro gs hgs
        have hlast := mergeAll_last h (hperm.trans List.perm_append_comm)
          (hgs.directory name contents .nil)
        simp only [patches, List.append_nil] at hlast
        rw [entryPatches, entryPatches, if_neg hname, if_neg hname, mergeAll_append,
          mergeAll_append, ← hgs.configFile_eq hds] at hlast
        exact hlast.symm

/-- The order in which the filesystem enumerates its directories makes no difference exactly where
it makes none between two entries of one directory. -/
theorem loadFromDir_orders_iff {es : List DirEntry} (hes : JsonTree es) {config : ConfigManager}
    (hconfig : config.config_.Ordered) (dir_path : Bytes) :
    (∀ fs, SameEntries es fs →
      loadFromDir config dir_path fs true = loadFromDir config dir_path es true) ↔
      OrderFree dir_path es := by
  have hload {fs : List DirEntry} (h : SameEntries es fs) :
      loadFromDir config dir_path fs true = loadFromDir config dir_path es true ↔
        mergeAll config (patches dir_path fs) = mergeAll config (patches dir_path es) := by
    rw [loadFromDir_eq hes, loadFromDir_eq (h.jsonTree hes), Prod.mk.injEq]
    exact and_iff_right rfl
  constructor
  · intro h
    exact orderFree_of_orders hes hconfig fun fs hfs => (hload hfs).mp (h fs hfs)
  · intro h fs hfs
    exact (hload hfs).mpr ((hfs.reordered hes h).patches config hconfig).symm

/-- Two files of different names may come in both orders. -/
theorem loadFromDir_orders_iff_two :
    loadFromDir ⟨.null⟩ (bytes "config")
        [numberFile (bytes "y.json") 2, numberFile (bytes "x.json") 1] true =
      loadFromDir ⟨.null⟩ (bytes "config")
        [numberFile (bytes "x.json") 1, numberFile (bytes "y.json") 2] true := by
  have htree : JsonTree [numberFile (bytes "x.json") 1, numberFile (bytes "y.json") 2] :=
    jsonTree_cons.mpr ⟨by decide, fun _ => trivial, jsonTree_nil, jsonTree_numberFile _ 2⟩
  have hnull : Json.Ordered .null := .leaf nofun
  have hfree : OrderFree (bytes "config")
      [numberFile (bytes "x.json") 1, numberFile (bytes "y.json") 2] := by
    refine .intro (List.pairwise_pair.mpr rfl) fun e he hext => ?_
    have hjson : extension e.name = bytes ".json" := by
      rcases List.mem_pair.mp he with rfl | rfl
      · decide
      · decide
    exact absurd hjson hext
  exact (loadFromDir_orders_iff htree hnull (bytes "config")).mpr hfree _ (.swap _ _ [])

/-- Of two files of one name the last one counts. -/
theorem sameName_orders_differ :
    JsonTree sameName ∧ SameEntries sameName sameName.reverse ∧
      loadFromDir ⟨.null⟩ (bytes "config") sameName.reverse true ≠
        loadFromDir ⟨.null⟩ (bytes "config") sameName true := by
  refine ⟨jsonTree_sameName, .swap _ _ [], fun h => ?_⟩
  have hfirst : (loadFromDir ⟨.null⟩ (bytes "config") sameName true).2.config_ =
      .object [(bytes "x", .numberUnsigned 2)] := rfl
  have hsecond : (loadFromDir ⟨.null⟩ (bytes "config") sameName.reverse true).2.config_ =
      .object [(bytes "x", .numberUnsigned 1)] := rfl
  rw [h, hfirst] at hsecond
  have hmembers := (List.cons.inj (Json.object.inj hsecond)).1
  exact absurd (Json.numberUnsigned.inj (Prod.mk.inj hmembers).2) (by decide)

end OpenAPT.ConfigManager
