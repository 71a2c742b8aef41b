import SliceFs.Chunking

/-!
# Block stores

Two stores of blocks by their hashes: one in memory, one with a file for each block. The
name of a file is the hash in hexadecimal, its first two digits being the name of a
directory; a block is written under a temporary name and then renamed. Paths are relative
to the directory of the store.
-/
namespace SliceFs
open ProgramLogic PathFs

abbrev Name := List Char

/-- The tree of directories and files below the directory of a store. -/
abbrev BlockDir := PathFs.Tree Name Bytes

/-- What both kinds of stores are made with. -/
structure BlockStoreConfig where
  verifyOnRead : Bool
  hasher : Bytes → ChunkHash

/-- Data that was read, hashed again if the configuration says so. -/
def BlockStoreConfig.verified {σ : Type} (config : BlockStoreConfig) (hash : ChunkHash)
    (data : Bytes) : Prog σ CasError Bytes := do
  let actual := config.hasher data
  Prog.ensure (config.verifyOnRead = true → actual = hash) (.integrityFailure hash actual)
  pure data

/-- The hash as text: two digits for each byte. -/
def hexText (hash : ChunkHash) : Name := hash.flatMap hexByte

/-- An empty name leads to the directory itself. -/
def joinName (p : Path Name) (name : Name) : Path Name := if name = [] then p else name :: p

/-- The part of a file name before its last dot, if there is something before it. -/
def fileStem (name : Name) : Name :=
  if name = ['.', '.'] then name
  else
    match name.reverse.dropWhile (· ≠ '.') with
    | [] => name
    | [_] => name
    | _ :: stem => stem.reverse

def withExtension (ext : Name) : Path Name → Path Name
  | [] => []
  | name :: p => (fileStem name ++ '.' :: ext) :: p

def hashToPath (hash : ChunkHash) : Path Name :=
  let hex := hexText hash
  if 2 ≤ hex.length then joinName (joinName [] (hex.take 2)) (hex.drop 2)
  else joinName (joinName [] ['0', '0']) hex

namespace LocalDiskStore
variable (config : BlockStoreConfig)

def put (hash : ChunkHash) (data : Bytes) : Prog BlockDir CasError Unit := do
  let computed := config.hasher data
  Prog.ensure (computed = hash) (.integrityFailure hash computed)
  let path := hashToPath hash
  let found ← Prog.mapErr .io (exists? path)
  if found then pure ()
  else do
    Prog.mapErr .io (createDirAll path.tail)
    let tmpPath := withExtension ['t', 'm', 'p'] path
    Prog.mapErr .io (write tmpPath data)
    Prog.mapErr .io (renameFile tmpPath path)

def get (hash : ChunkHash) : Prog BlockDir CasError Bytes := do
  let path := hashToPath hash
  let found ← Prog.mapErr .io (exists? path)
  Prog.ensure (found = true) (.notFound hash)
  let data ← Prog.mapErr .io (readFile path)
  config.verified hash data

def contains (hash : ChunkHash) : Prog BlockDir CasError Bool :=
  Prog.mapErr .io (exists? (hashToPath hash))

def delete (hash : ChunkHash) : Prog BlockDir CasError Unit := do
  let path := hashToPath hash
  let found ← Prog.mapErr .io (exists? path)
  if found then Prog.mapErr .io (removeFile path) else pure ()

end LocalDiskStore

/-- The blocks in memory. -/
abbrev Blocks := ChunkHash → Option Bytes

namespace MemBlockStore
variable (config : BlockStoreConfig)

def put (hash : ChunkHash) (data : Bytes) : Prog Blocks CasError Unit := do
  let computed := config.hasher data
  Prog.ensure (computed = hash) (.integrityFailure hash computed)
  let existing ← Prog.read fun m => m hash
  match existing with
  | some old => Prog.ensure (old = data) (.hashCollision hash)
  | none => Prog.modify fun m => Function.update m hash (some data)

def get (hash : ChunkHash) : Prog Blocks CasError Bytes := do
  let found ← Prog.read fun m => m hash
  let data ← Prog.ofOption found (.notFound hash)
  config.verified hash data

def contains (hash : ChunkHash) : Prog Blocks CasError Bool := Prog.read fun m => (m hash).isSome

def delete (hash : ChunkHash) : Prog Blocks CasError Unit :=
  Prog.modify fun m => Function.update m hash none

end MemBlockStore

inductive BlockOp where
  | put (hash : ChunkHash) (data : Bytes)
  | get (hash : ChunkHash)
  | contains (hash : ChunkHash)
  | delete (hash : ChunkHash)

inductive BlockReply where
  | done
  | bytes (data : Bytes)
  | found (b : Bool)
deriving DecidableEq, Repr

namespace BlockOp
variable (config : BlockStoreConfig)

def hash : BlockOp → ChunkHash
  | put hash _ => hash
  | get hash => hash
  | contains hash => hash
  | delete hash => hash

def onDisk : BlockOp → Prog BlockDir CasError BlockReply
  | put hash data => do LocalDiskStore.put config hash data; pure .done
  | get hash => do let data ← LocalDiskStore.get config hash; pure (.bytes data)
  | contains hash => do let b ← LocalDiskStore.contains hash; pure (.found b)
  | delete hash => do LocalDiskStore.delete hash; pure .done

def inMemory : BlockOp → Prog Blocks CasError BlockReply
  | put hash data => do MemBlockStore.put config hash data; pure .done
  | get hash => do let data ← MemBlockStore.get config hash; pure (.bytes data)
  | contains hash => do let b ← MemBlockStore.contains hash; pure (.found b)
  | delete hash => do MemBlockStore.delete hash; pure .done

end BlockOp

/-- The results of calls one after the other, failed or not. -/
def replies {σ : Type} (run : BlockOp → Prog σ CasError BlockReply) :
    List BlockOp → σ → List (Except (Fault CasError) BlockReply)
  | [], _ => []
  | op :: ops, s => (run op s).1 :: replies run ops (run op s).2

theorem digitChar_inj : ∀ a < 16, ∀ b < 16, Nat.digitChar a = Nat.digitChar b → a = b := by
  decide +kernel

theorem digitChar_ne_dot : ∀ a < 16, Nat.digitChar a ≠ '.' := by
  decide

theorem hexByte_injective : Function.Injective hexByte := by
  intro x y h
  have hx := x.toNat_lt
  have hy := y.toNat_lt
  obtain ⟨hhigh, hlow⟩ := List.cons.inj h
  have hlow' := (List.cons.inj hlow).1
  have hdiv := digitChar_inj (x.toNat / 16) (by omega) (y.toNat / 16) (by omega) hhigh
  have hmod := digitChar_inj (x.toNat % 16) (by omega) (y.toNat % 16) (by omega) hlow'
  apply UInt8.toNat_inj.mp
  omega

theorem dot_notMem_hexByte (b : UInt8) : '.' ∉ hexByte b := by
  have hlt := b.toNat_lt
  intro hmem
  rcases List.mem_cons.mp hmem with hhigh | hlow
  · exact digitChar_ne_dot (b.toNat / 16) (by omega) hhigh.symm
  · exact digitChar_ne_dot (b.toNat % 16) (by omega) (List.mem_singleton.mp hlow).symm

theorem hexText_injective : Function.Injective hexText := by
  intro a b h
  induction a generalizing b with
  | nil =>
      cases b with
      | nil => rfl
      | cons y b => simp [hexText, hexByte] at h
  | cons x a ih =>
      cases b with
      | nil => simp [hexText, hexByte] at h
      | cons y b =>
          have hsplit : hexByte x ++ hexText a = hexByte y ++ hexText b := h
          obtain ⟨hx, hrest⟩ := List.append_inj hsplit rfl
          rw [hexByte_injective hx, ih hrest]

theorem length_hexText (hash : ChunkHash) : (hexText hash).length = 2 * hash.length := by
  induction hash with
  | nil => rfl
  | cons x hash ih =>
      have hsplit : hexText (x :: hash) = hexByte x ++ hexText hash := rfl
      rw [hsplit, List.length_append, ih, List.length_cons, Nat.mul_succ, Nat.add_comm]
      rfl

theorem dot_notMem_hexText (hash : ChunkHash) : '.' ∉ hexText hash := by
  intro hmem
  obtain ⟨b, -, hb⟩ := List.mem_flatMap.mp hmem
  exact dot_notMem_hexByte b hb

/-- A name without a dot is its own stem. -/
theorem fileStem_of_notMem {name : Name} (h : '.' ∉ name) : fileStem name = name := by
  have hnot : name ≠ ['.', '.'] := by
    rintro rfl
    exact h List.mem_cons_self
  have hdrop : name.reverse.dropWhile (· ≠ '.') = [] := by
    rw [List.dropWhile_eq_nil_iff]
    intro c hc
    have hne : c ≠ '.' := by
      rintro rfl
      exact h (List.mem_reverse.mp hc)
    simpa using hne
  rw [fileStem, if_neg hnot, hdrop]

section
variable {hash hash' : ChunkHash}

def shardName (hash : ChunkHash) : Name := (hexText hash).take 2

def blockName (hash : ChunkHash) : Name := (hexText hash).drop 2

def tmpPath (hash : ChunkHash) : Path Name := withExtension ['t', 'm', 'p'] (hashToPath hash)

theorem hashToPath_eq (h : 2 ≤ hash.length) :
    hashToPath hash = [blockName hash, shardName hash] := by
  have hlen := length_hexText hash
  have hshard : (hexText hash).take 2 ≠ [] := by
    intro hnil
    have := congrArg List.length hnil
    rw [List.length_take, List.length_nil] at this
    omega
  have hblock : (hexText hash).drop 2 ≠ [] := by
    intro hnil
    have := congrArg List.length hnil
    rw [List.length_drop, List.length_nil] at this
    omega
  unfold hashToPath joinName
  rw [if_pos (by omega), if_neg hblock, if_neg hshard]
  rfl

theorem tmpPath_eq (h : 2 ≤ hash.length) :
    tmpPath hash = [blockName hash ++ ['.', 't', 'm', 'p'], shardName hash] := by
  have hdot : '.' ∉ blockName hash := fun hmem =>
    dot_notMem_hexText hash (List.mem_of_mem_drop hmem)
  rw [tmpPath, hashToPath_eq h, withExtension, fileStem_of_notMem hdot]

theorem hashToPath_inj (h : 2 ≤ hash.length) (h' : 2 ≤ hash'.length)
    (heq : hashToPath hash = hashToPath hash') : hash = hash' := by
  rw [hashToPath_eq h, hashToPath_eq h', List.cons.injEq, List.cons.injEq] at heq
  obtain ⟨hblock, hshard, -⟩ := heq
  apply hexText_injective
  rw [← List.take_append_drop 2 (hexText hash), ← List.take_append_drop 2 (hexText hash')]
  exact congrArg₂ (· ++ ·) hshard hblock

/-- A temporary file is no block. -/
theorem hashToPath_ne_tmpPath (h : 2 ≤ hash.length) (h' : 2 ≤ hash'.length) :
    hashToPath hash ≠ tmpPath hash' := by
  rw [hashToPath_eq h, tmpPath_eq h']
  intro heq
  have hname : blockName hash = blockName hash' ++ ['.', 't', 'm', 'p'] := (List.cons.inj heq).1
  have hdot : '.' ∈ blockName hash := by
    rw [hname]
    simp
  exact dot_notMem_hexText hash (List.mem_of_mem_drop hdot)

end

/-- The directory holds the blocks that are in memory, under their paths, and no file in
the place of a directory; a block is some data of `used` under its hash. -/
structure Mirrors (config : BlockStoreConfig) (used : Set Bytes) (m : Blocks) (d : BlockDir) :
    Prop where
  root : d [] = some .dir
  shard : ∀ (name : Name) (data : Bytes), d [name] ≠ some (.file data)
  block : ∀ hash : ChunkHash, 2 ≤ hash.length → d (hashToPath hash) = (m hash).map .file
  tmp : ∀ hash : ChunkHash, 2 ≤ hash.length → d (tmpPath hash) ≠ some .dir
  stored : ∀ (hash : ChunkHash) (data : Bytes), m hash = some data →
    data ∈ used ∧ config.hasher data = hash

section
variable {config : BlockStoreConfig} {used : Set Bytes} {m : Blocks} {d : BlockDir}
  {hash : ChunkHash} {data : Bytes}

/-- The directory after a new block was written. -/
def withBlock (d : BlockDir) (hash : ChunkHash) (data : Bytes) : BlockDir :=
  Function.update (Function.update (withDirs d [shardName hash]) (tmpPath hash) none)
    (hashToPath hash) (some (.file data))

theorem withDirs_two (d : BlockDir) (s a b : Name) : withDirs d [s] [a, b] = d [a, b] := by
  have hnot : ¬ [a, b] <:+ [s] := fun hs => by
    have := hs.length_le
    simp at this
  exact if_neg hnot

/-- A block is written under a temporary name and renamed. -/
theorem writeBlock_eq (h : Mirrors config used m d) (hlen : 2 ≤ hash.length)
    (hnew : m hash = none) (data : Bytes) :
    (do
      Prog.mapErr .io (createDirAll (hashToPath hash).tail)
      Prog.mapErr .io (write (tmpPath hash) data)
      Prog.mapErr .io (renameFile (tmpPath hash) (hashToPath hash)) :
        Prog BlockDir CasError Unit) d = (.ok (), withBlock d hash data) := by
  have hdirs : createDirAll [shardName hash] d = (.ok (), withDirs d [shardName hash]) := by
    apply createDirAll_eq
    intro q hq content
    rcases List.suffix_cons_iff.mp hq with rfl | hnil
    · exact h.shard _ content
    · rw [List.suffix_nil.mp hnil, h.root]
      nofun
  have hshard : withDirs d [shardName hash] [shardName hash] = some .dir :=
    if_pos (List.suffix_refl _)
  have hblock : withDirs d [shardName hash] (hashToPath hash) = none := by
    rw [hashToPath_eq hlen, withDirs_two, ← hashToPath_eq hlen, h.block hash hlen, hnew]
    rfl
  have htmp : withDirs d [shardName hash] (tmpPath hash) ≠ some .dir := by
    rw [tmpPath_eq hlen, withDirs_two, ← tmpPath_eq hlen]
    exact h.tmp hash hlen
  have hne := hashToPath_ne_tmpPath hlen hlen
  have hwrite : write (tmpPath hash) data (withDirs d [shardName hash]) =
      (.ok (), Function.update (withDirs d [shardName hash]) (tmpPath hash)
        (some (.file data))) := by
    rw [tmpPath_eq hlen] at htmp ⊢
    exact write_eq hshard htmp data
  have hrename : renameFile (tmpPath hash) (hashToPath hash)
      (Function.update (withDirs d [shardName hash]) (tmpPath hash) (some (.file data))) =
        (.ok (), withBlock d hash data) := by
    have hfree : Function.update (withDirs d [shardName hash]) (tmpPath hash) (some (.file data))
        (hashToPath hash) ≠ some .dir := by
      rw [Function.update_of_ne hne, hblock]
      nofun
    have hdir : Function.update (withDirs d [shardName hash]) (tmpPath hash) (some (.file data))
        [shardName hash] = some .dir := by
      rw [Function.update_of_ne (by rw [tmpPath_eq hlen]; simp), hshard]
    unfold withBlock
    rw [hashToPath_eq hlen] at hfree ⊢
    rw [renameFile_eq (Function.update_self _ _ _) hdir hfree, Function.update_idem]
  rw [hashToPath_eq hlen] at hrename ⊢
  rw [List.tail_cons, Prog.bind_ok (Prog.mapErr_ok _ hdirs), Prog.bind_ok (Prog.mapErr_ok _ hwrite),
    Prog.mapErr_ok _ hrename]

theorem Mirrors.withBlock (h : Mirrors config used m d) (hlen : 2 ≤ hash.length)
    (hdata : data ∈ used) (hhash : config.hasher data = hash) :
    Mirrors config used (Function.update m hash (some data)) (withBlock d hash data) where
  root := by
    have h₁ : [] ≠ hashToPath hash := by rw [hashToPath_eq hlen]; simp
    have h₂ : [] ≠ tmpPath hash := by rw [tmpPath_eq hlen]; simp
    rw [SliceFs.withBlock, Function.update_of_ne h₁, Function.update_of_ne h₂]
    exact if_pos (List.nil_suffix)
  shard name content := by
    have h₁ : [name] ≠ hashToPath hash := by rw [hashToPath_eq hlen]; simp
    have h₂ : [name] ≠ tmpPath hash := by rw [tmpPath_eq hlen]; simp
    rw [SliceFs.withBlock, Function.update_of_ne h₁, Function.update_of_ne h₂, withDirs]
    split_ifs
    · simp
    · exact h.shard name content
  block hash' hlen' := by
    by_cases hsame : hash' = hash
    · rw [hsame, SliceFs.withBlock, Function.update_self, Function.update_self]
      rfl
    · have h₁ : hashToPath hash' ≠ hashToPath hash := fun he => hsame (hashToPath_inj hlen' hlen he)
      have h₂ := hashToPath_ne_tmpPath hlen' hlen
      rw [Function.update_of_ne hsame, SliceFs.withBlock, Function.update_of_ne h₁,
        Function.update_of_ne h₂, ← h.block hash' hlen', hashToPath_eq hlen', withDirs_two]
  tmp hash' hlen' := by
    have h₁ := (hashToPath_ne_tmpPath hlen hlen').symm
    rw [SliceFs.withBlock, Function.update_of_ne h₁]
    by_cases hsame : tmpPath hash' = tmpPath hash
    · rw [hsame, Function.update_self]
      simp
    · rw [Function.update_of_ne hsame, tmpPath_eq hlen', withDirs_two, ← tmpPath_eq hlen']
      exact h.tmp hash' hlen'
  stored hash' content hm := by
    by_cases hsame : hash' = hash
    · rw [hsame, Function.update_self] at hm
      obtain rfl := Option.some.inj hm
      exact ⟨hdata, hhash.trans hsame.symm⟩
    · rw [Function.update_of_ne hsame] at hm
      exact h.stored hash' content hm

theorem Mirrors.without (h : Mirrors config used m d) (hlen : 2 ≤ hash.length) :
    Mirrors config used (Function.update m hash none)
      (Function.update d (hashToPath hash) none) where
  root := by
    rw [Function.update_of_ne (by rw [hashToPath_eq hlen]; nofun)]
    exact h.root
  shard name content := by
    rw [Function.update_of_ne (by rw [hashToPath_eq hlen]; simp)]
    exact h.shard name content
  block hash' hlen' := by
    by_cases hsame : hash' = hash
    · rw [hsame, Function.update_self, Function.update_self]
      rfl
    · rw [Function.update_of_ne hsame,
        Function.update_of_ne fun he => hsame (hashToPath_inj hlen' hlen he)]
      exact h.block hash' hlen'
  tmp hash' hlen' := by
    rw [Function.update_of_ne (hashToPath_ne_tmpPath hlen hlen').symm]
    exact h.tmp hash' hlen'
  stored hash' content hm := by
    by_cases hsame : hash' = hash
    · rw [hsame, Function.update_self] at hm
      cases hm
    · rw [Function.update_of_ne hsame] at hm
      exact h.stored hash' content hm

/-- A path exists on disk when its block is in memory. -/
theorem Mirrors.exists_eq (h : Mirrors config used m d) (hlen : 2 ≤ hash.length) :
    (Prog.mapErr .io (exists? (hashToPath hash)) : Prog BlockDir CasError Bool) d =
      (.ok (m hash).isSome, d) := by
  have hexists : exists? (hashToPath hash) d = (.ok (m hash).isSome, d) := by
    rw [exists?, Prog.read, h.block hash hlen, Option.isSome_map]
  exact Prog.mapErr_ok _ hexists

/-- The same result, and stores that still mirror each other. -/
def Agree {α : Type} (config : BlockStoreConfig) (used : Set Bytes)
    (memory : Except (Fault CasError) α × Blocks) (disk : Except (Fault CasError) α × BlockDir) :
    Prop :=
  disk.1 = memory.1 ∧ Mirrors config used memory.2 disk.2

theorem BlockStoreConfig.verified_apply {σ : Type} (config : BlockStoreConfig) (hash : ChunkHash)
    (data : Bytes) (s : σ) :
    config.verified hash data s =
      (if config.verifyOnRead = true → config.hasher data = hash then .ok data
        else .error (.err (.integrityFailure hash (config.hasher data))), s) := by
  unfold BlockStoreConfig.verified
  by_cases hok : config.verifyOnRead = true → config.hasher data = hash
  · rw [Prog.ensure_bind_of hok, if_pos hok]
    rfl
  · rw [Prog.ensure_bind_of_not hok, if_neg hok]

theorem BlockStoreConfig.verified_agrees (config : BlockStoreConfig) (h : Mirrors config used m d)
    (hash : ChunkHash) (data : Bytes) :
    Agree config used (config.verified hash data m) (config.verified hash data d) := by
  rw [verified_apply, verified_apply]
  exact ⟨rfl, h⟩

theorem read_block (hash : ChunkHash) (m : Blocks) :
    (Prog.read fun m => m hash : Prog Blocks CasError (Option Bytes)) m = (.ok (m hash), m) := rfl

theorem put_agrees (hinj : used.InjOn config.hasher) (h : Mirrors config used m d)
    (hlen : 2 ≤ hash.length) (hdata : data ∈ used) :
    Agree config used (MemBlockStore.put config hash data m)
      (LocalDiskStore.put config hash data d) := by
  unfold LocalDiskStore.put MemBlockStore.put
  by_cases hhash : config.hasher data = hash
  · rw [Prog.ensure_bind_of hhash, Prog.ensure_bind_of hhash, Prog.bind_ok (h.exists_eq hlen),
      Prog.bind_ok (read_block hash m)]
    cases hm : m hash with
    | some old =>
        obtain ⟨hused, hold⟩ := h.stored hash old hm
        have hsame : old = data := hinj hused hdata (hold.trans hhash.symm)
        -- a block that is there is kept, and it is the same
        show Agree config used (Prog.ensure (old = data) _ m) (.ok (), d)
        rw [Prog.ensure_apply, if_pos hsame]
        exact ⟨rfl, h⟩
    | none =>
        show Agree config used (.ok (), Function.update m hash (some data)) ((do
          Prog.mapErr .io (createDirAll (hashToPath hash).tail)
          Prog.mapErr .io (write (tmpPath hash) data)
          Prog.mapErr .io (renameFile (tmpPath hash) (hashToPath hash)) :
            Prog BlockDir CasError Unit) d)
        rw [writeBlock_eq h hlen hm data]
        exact ⟨rfl, h.withBlock hlen hdata hhash⟩
  · rw [Prog.ensure_bind_of_not hhash, Prog.ensure_bind_of_not hhash]
    exact ⟨rfl, h⟩

theorem get_agrees (h : Mirrors config used m d) (hlen : 2 ≤ hash.length) :
    Agree config used (MemBlockStore.get config hash m) (LocalDiskStore.get config hash d) := by
  unfold LocalDiskStore.get MemBlockStore.get
  rw [Prog.bind_ok (h.exists_eq hlen), Prog.bind_ok (read_block hash m)]
  cases hm : m hash with
  | some old =>
      have hread : readFile (hashToPath hash) d = (.ok old, d) := by
        rw [readFile, h.block hash hlen, hm]
        rfl
      rw [Prog.ensure_bind_of (by simp), Prog.bind_ok (Prog.mapErr_ok _ hread)]
      show Agree config used (config.verified hash old m) (config.verified hash old d)
      exact config.verified_agrees h hash old
  | none =>
      rw [Prog.ensure_bind_of_not (by simp)]
      exact ⟨rfl, h⟩

theorem delete_agrees (h : Mirrors config used m d) (hlen : 2 ≤ hash.length) :
    Agree config used (MemBlockStore.delete hash m) (LocalDiskStore.delete hash d) := by
  unfold LocalDiskStore.delete MemBlockStore.delete
  rw [Prog.bind_ok (h.exists_eq hlen)]
  cases hm : m hash with
  | some old =>
      have hremove : removeFile (hashToPath hash) d =
          (.ok (), Function.update d (hashToPath hash) none) := by
        rw [removeFile, h.block hash hlen, hm]
        rfl
      have hrun : Prog.mapErr CasError.io (removeFile (hashToPath hash)) d = _ :=
        Prog.mapErr_ok _ hremove
      show Agree config used (.ok (), Function.update m hash none)
        (Prog.mapErr CasError.io (removeFile (hashToPath hash)) d)
      rw [hrun]
      exact ⟨rfl, h.without hlen⟩
  | none =>
      have hsame : Function.update m hash none = m := by rw [← hm, Function.update_eq_self]
      show Agree config used (.ok (), Function.update m hash none) (.ok (), d)
      rw [hsame]
      exact ⟨rfl, h⟩

theorem contains_agrees (h : Mirrors config used m d) (hlen : 2 ≤ hash.length) :
    Agree config used (MemBlockStore.contains hash m) (LocalDiskStore.contains hash d) := by
  rw [LocalDiskStore.contains, h.exists_eq hlen]
  exact ⟨rfl, h⟩

/-- Agreement is kept by what is done with a value. -/
theorem Agree.bind_pure {α β : Type} {mem : Prog Blocks CasError α}
    {disk : Prog BlockDir CasError α} (h : Agree config used (mem m) (disk d)) (g : α → β) :
    Agree config used ((do let a ← mem; pure (g a)) m) ((do let a ← disk; pure (g a)) d) := by
  obtain ⟨hresult, hstate⟩ := h
  rw [Prog.bind_apply, Prog.bind_apply]
  rcases hmem : mem m with ⟨rm, m'⟩
  rcases hdisk : disk d with ⟨rd, d'⟩
  rw [hmem, hdisk] at hresult hstate
  obtain rfl : rd = rm := hresult
  cases rd with
  | ok a => exact ⟨rfl, hstate⟩
  | error e => exact ⟨rfl, hstate⟩

/-- The data that calls put. -/
def BlockOp.data? : BlockOp → Option Bytes
  | put _ data => some data
  | _ => none

theorem BlockOp.agrees (hinj : used.InjOn config.hasher) (h : Mirrors config used m d)
    {op : BlockOp} (hlen : 2 ≤ op.hash.length) (hdata : ∀ data ∈ op.data?, data ∈ used) :
    Agree config used (op.inMemory config m) (op.onDisk config d) := by
  cases op with
  | put hash data =>
      exact (put_agrees hinj h hlen (hdata data rfl)).bind_pure fun _ => BlockReply.done
  | get hash => exact (get_agrees h hlen).bind_pure BlockReply.bytes
  | contains hash => exact (contains_agrees h hlen).bind_pure BlockReply.found
  | delete hash => exact (delete_agrees h hlen).bind_pure fun _ => BlockReply.done

theorem replies_eq (hinj : used.InjOn config.hasher) (h : Mirrors config used m d)
    {ops : List BlockOp} (hlen : ∀ op ∈ ops, 2 ≤ op.hash.length)
    (hdata : ∀ op ∈ ops, ∀ data ∈ op.data?, data ∈ used) :
    replies (BlockOp.onDisk config) ops d = replies (BlockOp.inMemory config) ops m := by
  induction ops generalizing m d with
  | nil => rfl
  | cons op ops ih =>
      obtain ⟨hresult, hstate⟩ := BlockOp.agrees hinj h (hlen op List.mem_cons_self)
        (hdata op List.mem_cons_self)
      rw [replies, replies, hresult,
        ih hstate (fun x hx => hlen x (List.mem_cons_of_mem _ hx))
          fun x hx => hdata x (List.mem_cons_of_mem _ hx)]

end

/-- An empty directory, as `new` makes it. -/
def emptyBlockDir : BlockDir := Function.update (fun _ => none) [] (some .dir)

theorem mirrors_empty (config : BlockStoreConfig) (used : Set Bytes) :
    Mirrors config used (fun _ => none) emptyBlockDir where
  root := rfl
  shard _ _ := nofun
  block hash hlen := by
    rw [emptyBlockDir, Function.update_of_ne (by rw [hashToPath_eq hlen]; nofun)]
    rfl
  tmp hash hlen := by
    rw [emptyBlockDir, Function.update_of_ne (by rw [tmpPath_eq hlen]; nofun)]
    nofun
  stored _ _ hm := nomatch hm

/-- Both stores answer every sequence of calls in the same way, whether data is verified
when it is read or not. -/
theorem disk_refines_memory (config : BlockStoreConfig)
    (ops : List BlockOp)
    (hinj : {data | ∃ op ∈ ops, op.data? = some data}.InjOn config.hasher)
    (hlen : ∀ op ∈ ops, 2 ≤ op.hash.length) :
    replies (BlockOp.onDisk config) ops emptyBlockDir =
      replies (BlockOp.inMemory config) ops fun _ => none :=
  replies_eq hinj (mirrors_empty config _) hlen fun op hop _ hdata => ⟨op, hop, hdata⟩

/-- A hasher that keeps the data. -/
def plainConfig : BlockStoreConfig where
  verifyOnRead := true
  hasher data := 0 :: 1 :: data

/-- A block put twice, one put under a wrong hash, read, deleted and read again. -/
theorem disk_refines_memory_plain :
    replies (BlockOp.onDisk plainConfig)
        [.put [0, 1, 7] [7], .put [0, 1, 7] [7], .put [0, 1] [7], .get [0, 1, 7],
          .delete [0, 1, 7], .get [0, 1, 7], .contains [0, 1]] emptyBlockDir =
      [.ok .done, .ok .done, .error (.err (.integrityFailure [0, 1] [0, 1, 7])),
        .ok (.bytes [7]), .ok .done, .error (.err (.notFound [0, 1, 7])), .ok (.found false)] := by
  rw [disk_refines_memory plainConfig _ (fun _ _ _ _ h => (List.cons.inj (List.cons.inj h).2).2)
    (by simp [BlockOp.hash])]
  rfl

end SliceFs
