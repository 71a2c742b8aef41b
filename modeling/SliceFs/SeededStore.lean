import SliceFs.Planting
import SliceFs.StoreLifetime
import SliceFs.WritePath

/-!
# Seeded stores

A store that was seeded from a source directory and opened shows that directory: each name
leads to a node of its kind with its attributes and its content, and no directory has other
names than its source.
-/
namespace SliceFs
open TreeMaps ProgramLogic

/-- The source directories that seeding takes over as they are. -/
structure SeedTree.Seedable (tree : SeedTree) : Prop where
  proper : tree.Proper
  fits : tree.Fits
  width : tree.names.length + 3 < 2 ^ 32
  numbers : tree.nodes + 2 < 2 ^ 64

def Image.tree (v : Image) : Tree := ⟨v.core.inodes, v.dirs, v.core.nextIno⟩

/-- The image of a new store with the attributes of the source at its root. -/
def Image.bare (key : Str → Digest224) (source : SourceMeta) : Image where
  core := .initial { dirInodeMeta source with ino := 1 }
  dirs := Std.ExtTreeMap.insert ∅ 1 (Tree.newDir key 1 1)

theorem Image.entries_bare (key : Str → Digest224) (source : SourceMeta) :
    (Image.bare key source).dirs[(1 : UInt64)]? = some (Tree.newDir key 1 1) := by
  rw [Image.bare, getElem?_insert_ite, if_pos rfl]

theorem SeedTree.Seedable.ready {tree : SeedTree} (h : tree.Seedable) (key : Str → Digest224)
    (source : SourceMeta) : (Image.bare key source).Ready tree 1
      { dirInodeMeta source with ino := 1 } (Tree.newDir key 1 1) := by
  have hcount := tree.dirCount_le
  have hsize := Image.size_newDir_le key 1 1
  have hwidth := h.width
  refine ⟨?_, isDir_dirInodeMeta source, ?_, Image.entries_bare key source, by omega,
    fun k e he hmem => h.proper.not_isDots hmem (Tree.getElem?_newDir he).1, ?_⟩
  · rw [Image.bare, Contents.initial, getElem?_insert_ite, if_pos rfl]
  · show 2 + tree.dirCount < 2 ^ 32
    omega
  · show 2 + tree.nodes < 2 ^ 64
    exact Nat.add_comm 2 _ ▸ h.numbers

section
variable {B : Blockset} {L : B.Laws} {st st' : Store B} {v : Image} {overflowChecks : Bool}
  {d d₁ d₂ : Disk B} {source : SourceMeta} {tree : SeedTree} {root : Digest224}

/-- What a store stands for is in the part of its maps that a root record keeps. -/
theorem Blockset.Laws.Holds.carried {c : Contents} (h : L.Holds st c) (hle : L.le st.io st'.io)
    (hm : st'.maps.persistent = st.maps.persistent) : L.Holds st' c := by
  obtain ⟨hmap, hinodes, hdirs, hmanifests, -, hrefcounts, -, -⟩ := StoreMaps.mk.inj hm
  have hg := h.grow hle
  exact
    { inodes := fun i => hinodes ▸ hg.inodes i
      inode := hg.inode
      manifests := fun i => hmanifests ▸ hg.manifests i
      manifest := hg.manifest
      content := hg.content
      dirs := fun p d hd => hg.dirs p d (hdirs ▸ hd)
      refcounts := hrefcounts.trans hg.refcounts
      nextIno := (congrArg InodeMap.nextIno hmap).trans hg.nextIno }

theorem Blockset.Laws.Pictures.carried (h : L.Pictures st v) (hle : L.le st.io st'.io)
    (hm : st'.maps.persistent = st.maps.persistent) : L.Pictures st' v :=
  ⟨h.core.carried hle hm, h.listing.frame hle (StoreMaps.mk.inj hm).2.2.1⟩

/-- Seeding a new store plants the tree under its root. -/
theorem wp_seed_grown (hB : L.Reliable) {io io' : B.Io} (hnew : Store.new B 0 0 io = (.ok st, io'))
    (source : SourceMeta) (hs : tree.Seedable) :
    wp L.growthQuiet (seed source tree)
      (fun r st' => r = .ok () ∧
        ∃ v, L.Pictures st' v ∧ Image.Grown L.key tree 1 (.bare L.key source) v) st := by
  have hholds := (holds_new (L := L) hB hnew).1
  have hlisting := (shows_new (L := L) hB hnew false).listing
  have hroot : (Contents.initial (rootInode 0 0)).inodes[(1 : UInt64)]? = some (rootInode 0 0) := by
    rw [Contents.initial, getElem?_insert_ite, if_pos rfl]
  refine wp_of_good fun hc => ?_
  unfold seed
  have hget : getInode 1 st = (.ok (rootInode 0 0), st) := by
    rw [getInode_eq hholds hc, Contents.getInode, hroot]
    rfl
  obtain ⟨st₁, hupdate, h₁⟩ := updateInode_eq hB hholds
    (m := { dirInodeMeta source with ino := 1 }) hroot
  have hgrow := (InodeGrowth.updateInode (g := L.fixedDirs)
    { dirInodeMeta source with ino := 1 }).le_run st
  rw [hupdate] at hgrow
  have hpic : L.Pictures st₁ (.bare L.key source) := by
    refine ⟨?_, hlisting.frame hgrow.1.1 hgrow.2⟩
    simpa only [Image.bare, Contents.putInode, Contents.initial, insert_insert] using h₁
  exact wp_bind_of_eq hget (wp_bind_of_eq hupdate
    (wp_walkDir_grown hB tree hpic (hs.ready L.key source) hs.proper hs.fits))

/-- The store that opens after a seeding has the maps that the seeding made. -/
theorem openStore_seeded (hB : L.Reliable) (hseed : runSeed source tree d = (.ok root, d₁))
    (hempty : d.segments = ∅) (hc : L.NoCollision d₁.io) {config : WalConfig}
    (hopen : openStore overflowChecks config d₁ = (.ok st, d₂)) :
    st.io = d₁.io ∧ ∃ s₀ s₁ io, Store.new B 0 0 d.io = (.ok s₀, io) ∧
      seed source tree s₀ = (.ok (), s₁) ∧ L.le s₁.io st.io ∧
      st.maps.persistent = s₁.maps.persistent := by
  obtain ⟨s₀, s₁, s₂, io, hnew, hseeded, hcommit, hio⟩ := runSeed_eq_ok hseed
  obtain ⟨live, snaps, u, io', hload, hfrom, rfl, rfl⟩ := openStore_eq_ok hopen
  rw [(segments_seeded hseed hempty).load] at hload
  obtain rfl : root = live := Option.some.inj (Prod.mk.inj (Except.ok.inj hload)).1
  rw [← hio] at hc hfrom
  obtain rfl := eq_loadedStore_of_commit L hB hcommit (L.le_refl _) hc hfrom
  exact ⟨hio, s₀, s₁, io, hnew, hseeded, (commit_spec L hB hcommit).2.2.2.1, rfl⟩

/-- The store that opens after a seeding stands for the planted tree. -/
theorem pictures_seeded (hB : L.Reliable) (hs : tree.Seedable)
    (hseed : runSeed source tree d = (.ok root, d₁)) (hempty : d.segments = ∅)
    (hc : L.NoCollision d₁.io) {config : WalConfig}
    (hopen : openStore overflowChecks config d₁ = (.ok st, d₂)) :
    L.key .dot ≠ L.key .dotDot ∧
      ∃ v, L.Pictures st v ∧ Image.Grown L.key tree 1 (.bare L.key source) v := by
  obtain ⟨hio, s₀, s₁, io, hnew, hseeded, hle, hmaps⟩ := openStore_seeded hB hseed hempty hc hopen
  rw [← hio] at hc
  have hgrows : Growing L.growthQuiet (seed source tree : StoreM B Unit) := inferInstance
  have hle₀ := (hgrows.le_run s₀).1
  have hwp := wp_seed_grown hB hnew source hs
  rw [hseeded] at hle₀
  rw [wp, hseeded] at hwp
  obtain ⟨-, v, hv, hg⟩ := hwp (hc.of_le hle)
  refine ⟨fun heq => ?_, v, hv.carried hle hmaps, hg⟩
  obtain ⟨_, rfl, -, -, -, hdot, hdotDot⟩ := new_eq (L := L) hB hnew
  have hle' := L.le_trans hle₀ hle
  exact absurd (hc (L.stored_mono hle' hdot) (L.stored_mono hle' hdotDot) heq) (by decide)

/-- The entries of a directory in `p` are `.`, `..` and the names of the source, each as it is
looked up. -/
def Fs.Lists (s : Fs B) (tree : SeedTree) (i p : UInt64) : Prop :=
  ⟨.dot, i⟩ ∈ s.entries i ∧ ⟨.dotDot, p⟩ ∈ s.entries i ∧
    ∀ e ∈ s.entries i, e = ⟨.dot, i⟩ ∨ e = ⟨.dotDot, p⟩ ∨
      e.name ∈ tree.names ∧ s.resolve i e.name = some e.ino

/-- Each name of the source leads from directory `p` to a node with its attributes and its
content. -/
def Fs.Mirrors (s : Fs B) : SeedTree → UInt64 → Prop
  | .done, _ => True
  | .dir name source children rest, p =>
      (∃ i, s.resolve p name = some i ∧
        s.inode i = some { dirInodeMeta source with
          ino := i, nlinks := 2 + UInt32.ofNat children.dirCount } ∧
        s.Lists children i p ∧ s.Mirrors children i) ∧
      s.Mirrors rest p
  | .file name source bytes _ rest, p =>
      (∃ i, s.resolve p name = some i ∧
        s.inode i = some { fileInodeMeta source (UInt64.ofNat bytes.length) with ino := i } ∧
        s.committed i = some bytes) ∧
      s.Mirrors rest p

theorem Blockset.Laws.Pictures.shows (h : L.Pictures st v) (auto : Bool) :
    L.Shows (Fs.mount st auto) v.tree :=
  ⟨⟨_, views_mount h.core auto, rfl, rfl⟩, h.listing⟩

theorem Blockset.Laws.Pictures.lists (hB : L.Reliable) (h : L.Pictures st v)
    (hc : L.NoCollision st.io) (hkeys : L.key .dot ≠ L.key .dotDot) (auto : Bool) {i p : UInt64}
    (hnew : ∀ (k : Digest224) (e : EntryRecord), (Tree.newDir L.key i p)[k]? = some e →
      v.entry i k = some e)
    (hclosed : ∀ (k : Digest224) (e : EntryRecord), v.entry i k = some e →
      (Tree.newDir L.key i p)[k]? = some e ∨ e.name ∈ tree.names) :
    (Fs.mount st auto).Lists tree i p := by
  have hshows := h.shows auto
  refine ⟨?_, ?_, fun e he => ?_⟩
  · refine (hshows.mem_entries hc).mpr ⟨_, _, hnew (L.key .dot) ⟨L.key .dot, i, .dot⟩ ?_, rfl⟩
    rw [Tree.newDir, getElem?_insert_ite, if_neg hkeys, getElem?_insert_ite, if_pos rfl]
  · refine (hshows.mem_entries hc).mpr ⟨_, _, hnew (L.key .dotDot) ⟨L.key .dotDot, p, .dotDot⟩ ?_,
      rfl⟩
    rw [Tree.newDir, getElem?_insert_ite, if_pos rfl]
  · obtain ⟨k, r, hr, rfl⟩ := (hshows.mem_entries hc).mp he
    rcases hclosed k r hr with hdots | hname
    · rw [Tree.newDir, getElem?_insert_ite, getElem?_insert_ite] at hdots
      split_ifs at hdots
      · obtain rfl := Option.some.inj hdots
        exact .inr (.inl rfl)
      · obtain rfl := Option.some.inj hdots
        exact .inl rfl
      · simp at hdots
    · refine .inr (.inr ⟨hname, hshows.resolve hB hc (e := r) ?_⟩)
      obtain ⟨es, hes, hk⟩ := Option.bind_eq_some_iff.mp hr
      rw [← ((hshows.listing.listed _ es hes).entry k r hk).2.1]
      exact hr

theorem Blockset.Laws.Pictures.mirrors (hB : L.Reliable) (h : L.Pictures st v)
    (hc : L.NoCollision st.io) (hkeys : L.key .dot ≠ L.key .dotDot) (auto : Bool) {p : UInt64}
    (hshown : v.Shown L.key tree p) : (Fs.mount st auto).Mirrors tree p := by
  have hshows := h.shows auto
  induction tree generalizing p with
  | done => trivial
  | dir name source children rest ihc ihr =>
      obtain ⟨⟨i, -, -, he, hm, hnew, hclosed, hchildren⟩, hrest⟩ := hshown
      exact ⟨⟨i, hshows.resolve hB hc he, (hshows.inode hc i).trans hm,
        h.lists hB hc hkeys auto hnew hclosed, ihc hchildren⟩, ihr hrest⟩
  | file name source bytes hlen rest ih =>
      obtain ⟨⟨i, -, -, he, hm, hcontent⟩, hrest⟩ := hshown
      refine ⟨⟨i, hshows.resolve hB hc he, (hshows.inode hc i).trans hm, ?_⟩, ih hrest⟩
      rw [(views_mount h.core auto).committed hc, Option.join_eq_some_iff.mp hcontent]
      rfl

/-- A store that was seeded from a directory and opened shows that directory. -/
theorem seeded_store_mirrors (L : B.Laws) (hB : B.NoIoErrors) (hs : tree.Seedable)
    (hseed : runSeed source tree d = (.ok root, d₁)) (hempty : d.segments = ∅)
    (hc : L.NoCollision d₁.io) {config : WalConfig}
    (hopen : openStore overflowChecks config d₁ = (.ok st, d₂)) (auto : Bool) :
    (Fs.mount st auto).inode 1 = some { dirInodeMeta source with
        ino := 1, nlinks := 2 + UInt32.ofNat tree.dirCount } ∧
      (Fs.mount st auto).Lists tree 1 1 ∧ (Fs.mount st auto).Mirrors tree 1 := by
  have hB := hB.reliable L
  obtain ⟨hkeys, v, hv, hg⟩ := pictures_seeded hB hs hseed hempty hc hopen
  rw [← (openStore_seeded hB hseed hempty hc hopen).1] at hc
  have hbare : ∀ k, (Image.bare L.key source).entry 1 k = (Tree.newDir L.key 1 1)[k]? := fun k => by
    rw [Image.entry, Image.entries_bare, Option.bind_some]
  refine ⟨?_, hv.lists hB hc hkeys auto (fun k e he => hg.kept k e ((hbare k).trans he))
    (fun k e he => hbare k ▸ hg.new k e he), hv.mirrors hB hc hkeys auto hg.shown⟩
  rw [(hv.shows auto).inode hc]
  exact hg.parent _ (hs.ready L.key source).inode

end

/-- A directory with a file in it. -/
def nestedTree : SeedTree := .dir .a hostRoot hostTree .done

theorem seedable_nestedTree : nestedTree.Seedable where
  proper := ⟨by decide, List.not_mem_nil, ⟨by decide, List.not_mem_nil, trivial⟩, trivial⟩
  fits := ⟨by decide, by decide, ⟨by decide, trivial⟩, trivial⟩
  width := by decide
  numbers := by decide

def nestedDisk : Disk memoryBlockset := (runSeed hostRoot nestedTree emptyDisk).2

def nestedStore : Store memoryBlockset :=
  (openStore true .perOp nestedDisk).1.toOption.get (by decide +kernel)

theorem seeded_store_mirrors_nestedTree :
    ∃ i j, (Fs.mount nestedStore false).resolve 1 .a = some i ∧
    (Fs.mount nestedStore false).resolve i .a = some j ∧
    (Fs.mount nestedStore false).committed j = some [1, 2, 3] := by
  have hseed : runSeed hostRoot nestedTree emptyDisk = (.ok _, nestedDisk) :=
    Prog.eq_ok_of_isSome (by decide +kernel)
  have hc : memoryLaws.NoCollision nestedDisk.io := memoryLaws_noCollision (by decide +kernel)
  obtain ⟨-, -, ⟨i, hi, -, -, ⟨j, hj, -, hbytes⟩, -⟩, -⟩ := seeded_store_mirrors memoryLaws
    memoryBlockset_noIoErrors seedable_nestedTree hseed rfl hc (Prog.eq_ok_of_isSome _) false
  exact ⟨i, j, hi, hj, hbytes⟩

end SliceFs
