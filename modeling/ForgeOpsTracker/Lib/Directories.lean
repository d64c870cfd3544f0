import ForgeOpsTracker.Lib.Bytes

/-! A file system as `mkdir` sees it: directories, the names in them, symbolic
links, and who may search a directory or add a name to it.

A path is resolved one component at a time from the root or the working directory,
`.`, `..` and links included, with a limit on the links followed. What resolves
keeps resolving when names are added (`walk_mono`), and the way to a path's parent
passes through every shorter path to it (`walk_append`). -/

namespace ForgeOps.Directories

inductive Errno
  | alreadyExists
  | missing
  | notDirectory
  | denied
  | loop
  deriving DecidableEq, Repr

inductive Node
  | directory (id : Nat)
  | file
  | link (target : Bytes)
  deriving DecidableEq, Repr

/-- `admits` says which new names the directory takes: whether it may be written to
and has room, and whether the name is short enough. -/
structure Directory where
  parent : Nat
  entries : List (Bytes × Node)
  searchable : Bool
  admits : Bytes → Bool

/-- The directories by number, the root first, and the working directory. A new
directory is searchable and takes names as the umask leaves it. -/
structure FileSystem where
  directories : List Directory
  cwd : Nat
  newSearchable : Bool
  newAdmits : Bytes → Bool

def Directory.lookup (d : Directory) (name : Bytes) : Option Node :=
  (d.entries.find? fun e => e.1 = name).map Prod.snd

/-! ## Paths -/

/-- The names between the slashes; empty ones do not count. -/
def components (path : Bytes) : List Bytes :=
  (path.splitOn 47).filter fun name => name ≠ []

def dot : Bytes := ascii "."
def dotDot : Bytes := ascii ".."

/-- Where the resolution of a path met in directory `d` starts. -/
def start (d : Nat) (path : Bytes) : Nat := if path.head? = some 47 then 0 else d

/-- Resolve components to a directory; `onLink` takes over at a symbolic link. -/
def follow (fs : FileSystem) (onLink : Nat → Bytes → List Bytes → Except Errno Nat) :
    Nat → List Bytes → Except Errno Nat
  | d, [] => if d < fs.directories.length then .ok d else .error .missing
  | d, name :: names =>
    match fs.directories[d]? with
    | none => .error .missing
    | some dir =>
      if ¬ dir.searchable then .error .denied
      else if name = dot then follow fs onLink d names
      else if name = dotDot then follow fs onLink dir.parent names
      else
        match dir.lookup name with
        | none => .error .missing
        | some (.directory e) => follow fs onLink e names
        | some .file => .error .notDirectory
        | some (.link target) => onLink d target names

/-- Resolve components to a directory, following at most `links` links. -/
def walk (fs : FileSystem) : Nat → Nat → List Bytes → Except Errno Nat
  | 0 => follow fs fun _ _ _ => .error .loop
  | links + 1 => follow fs fun d target names =>
    walk fs links (start d target) (components target ++ names)

def maxLinks : Nat := 40

/-- The directory a path leads to. -/
def resolve (fs : FileSystem) (path : Bytes) : Except Errno Nat :=
  if path = [] then .error .missing
  else walk fs maxLinks (start fs.cwd path) (components path)

/-- The directory that holds, or would hold, the last component of a path. -/
def resolveParent (fs : FileSystem) (path : Bytes) : Except Errno Nat :=
  walk fs maxLinks (start fs.cwd path) (components path).dropLast

def IsDirectory (fs : FileSystem) (path : Bytes) : Prop := ∃ d, resolve fs path = .ok d

instance (fs : FileSystem) (path : Bytes) : Decidable (IsDirectory fs path) :=
  match h : resolve fs path with
  | .ok d => isTrue ⟨d, h⟩
  | .error _ => isFalse fun ⟨_, hd⟩ => by rw [hd] at h; cases h

/-- The parent of the path is a directory, and the path's last name is not in it. -/
def Vacant (fs : FileSystem) (path : Bytes) : Prop :=
  ∃ name ∈ (components path).getLast?, name ≠ dot ∧ name ≠ dotDot ∧
    ∃ d, resolveParent fs path = .ok d ∧ ∃ dir ∈ fs.directories[d]?, dir.lookup name = none

/-! ## Making a directory -/

/-- The file system with an empty directory `name` made in directory `d`. -/
def addDirectory (fs : FileSystem) (d : Nat) (name : Bytes) : FileSystem :=
  { fs with directories :=
      fs.directories.modify d (fun dir =>
        { dir with entries := (name, .directory fs.directories.length) :: dir.entries }) ++
      [⟨d, [], fs.newSearchable, fs.newAdmits⟩] }

/-- `mkdir` -/
def mkdir (fs : FileSystem) (path : Bytes) : Except Errno FileSystem :=
  if path = [] then .error .missing
  else
    match (components path).getLast? with
    | none => .error .alreadyExists
    | some name =>
      match resolveParent fs path with
      | .error e => .error e
      | .ok d =>
        match fs.directories[d]? with
        | none => .error .missing
        | some dir =>
          if ¬ dir.searchable then .error .denied
          else if name = dot ∨ name = dotDot ∨ (dir.lookup name).isSome then .error .alreadyExists
          else if ¬ dir.admits name then .error .denied
          else .ok (addDirectory fs d name)

/-- Whether `open(path, O_WRONLY | O_CREAT | O_TRUNC)` succeeds for a name that is not
a link: an existing file is truncated, a new one is made. -/
def canOpen (fs : FileSystem) (path : Bytes) : Bool :=
  match (components path).getLast?, resolveParent fs path with
  | some name, .ok d =>
    match fs.directories[d]? with
    | none => false
    | some dir =>
      dir.searchable && match dir.lookup name with
        | some .file => true
        | some _ => false
        | none => dir.admits name
  | _, _ => false

/-! ## Components of a longer path -/

theorem components_append (path rest : Bytes) :
    components (path ++ 47 :: rest) = components path ++ components rest := by
  rw [components, List.splitOn_eq_splitOnP, List.splitOnP_append_cons _ _ (by rfl),
    List.filter_append]
  rfl

theorem components_name {name : Bytes} (hne : name ≠ []) (h : 47 ∉ name) :
    components name = [name] := by
  have hsplit : name.splitOn 47 = [name] := by
    rw [List.splitOn_eq_splitOnP]
    apply List.splitOnP_eq_singleton
    intro c hc
    exact beq_false_of_ne fun hslash => h (hslash ▸ hc)
  simp [components, hsplit, hne]

theorem start_append {path : Bytes} (hne : path ≠ []) (d : Nat) (rest : Bytes) :
    start d (path ++ rest) = start d path := by
  cases path with
  | nil => exact absurd rfl hne
  | cons c path => rfl

/-! ## Resolution, one component at a time -/

/-- With `links` links left, the next component takes the walk from `d` to `d'`, with
`links'` left and the components of a link's target, if it is one, before the rest. -/
def Hop (fs : FileSystem) (links d : Nat) (name : Bytes) (links' d' : Nat) (more : List Bytes) :
    Prop :=
  ∃ dir, fs.directories[d]? = some dir ∧ dir.searchable ∧
    ((name = dot ∧ links' = links ∧ d' = d ∧ more = []) ∨
      (name ≠ dot ∧ name = dotDot ∧ links' = links ∧ d' = dir.parent ∧ more = []) ∨
      (name ≠ dot ∧ name ≠ dotDot ∧ dir.lookup name = some (.directory d') ∧ links' = links ∧
        more = []) ∨
      (name ≠ dot ∧ name ≠ dotDot ∧ ∃ target, dir.lookup name = some (.link target) ∧
        links = links' + 1 ∧ d' = start d target ∧ more = components target))

theorem walk_nil {fs : FileSystem} {links d e : Nat} :
    walk fs links d [] = .ok e ↔ d < fs.directories.length ∧ d = e := by
  cases links <;> simp only [walk, follow] <;> split <;> simp [*]

theorem walk_cons {fs : FileSystem} {links d e : Nat} {name : Bytes} {names : List Bytes} :
    walk fs links d (name :: names) = .ok e ↔ ∃ links' d' more,
      Hop fs links d name links' d' more ∧ walk fs links' d' (more ++ names) = .ok e := by
  constructor
  · intro h
    cases hd : fs.directories[d]? with
    | none => cases links <;> simp [walk, follow, hd] at h
    | some dir =>
      by_cases hs : dir.searchable
      · by_cases hdot : name = dot
        · refine ⟨links, d, [], ⟨dir, hd, hs, .inl ⟨hdot, rfl, rfl, rfl⟩⟩, ?_⟩
          cases links <;> simpa [walk, follow, hd, hs, hdot] using h
        · by_cases hdd : name = dotDot
          · refine ⟨links, dir.parent, [], ⟨dir, hd, hs,
              .inr (.inl ⟨hdot, hdd, rfl, rfl, rfl⟩)⟩, ?_⟩
            subst hdd
            cases links <;> simpa [walk, follow, hd, hs, hdot] using h
          · cases hl : dir.lookup name with
            | none => cases links <;> simp [walk, follow, hd, hs, hdot, hdd, hl] at h
            | some node =>
              cases node with
              | directory d' =>
                refine ⟨links, d', [],
                  ⟨dir, hd, hs, .inr (.inr (.inl ⟨hdot, hdd, hl, rfl, rfl⟩))⟩, ?_⟩
                cases links <;> simpa [walk, follow, hd, hs, hdot, hdd, hl] using h
              | file => cases links <;> simp [walk, follow, hd, hs, hdot, hdd, hl] at h
              | link target =>
                cases links with
                | zero => simp [walk, follow, hd, hs, hdot, hdd, hl] at h
                | succ links =>
                  refine ⟨links, _, _, ⟨dir, hd, hs, .inr (.inr (.inr
                    ⟨hdot, hdd, target, hl, rfl, rfl, rfl⟩))⟩, ?_⟩
                  simpa [walk, follow, hd, hs, hdot, hdd, hl] using h
      · cases links <;> simp [walk, follow, hd, hs] at h
  · rintro ⟨links', d', more, ⟨dir, hd, hs, hcase⟩, h⟩
    rcases hcase with ⟨rfl, rfl, rfl, rfl⟩ | ⟨hdot, rfl, rfl, rfl, rfl⟩ |
      ⟨hdot, hdd, hl, rfl, rfl⟩ | ⟨hdot, hdd, target, hl, rfl, rfl, rfl⟩
    · cases links' <;> simpa [walk, follow, hd, hs] using h
    · cases links' <;> simpa [walk, follow, hd, hs, hdot] using h
    · cases links' <;> simpa [walk, follow, hd, hs, hdot, hdd, hl] using h
    · simpa [walk, follow, hd, hs, hdot, hdd, hl] using h

/-- A walk that ends in a directory, as a derivation. -/
inductive Leads (fs : FileSystem) : Nat → Nat → List Bytes → Nat → Prop
  | here {links d : Nat} (hd : d < fs.directories.length) : Leads fs links d [] d
  | hop {links d links' d' e : Nat} {name : Bytes} {names more : List Bytes}
      (hhop : Hop fs links d name links' d' more) (hrest : Leads fs links' d' (more ++ names) e) :
      Leads fs links d (name :: names) e

theorem leads_of_walk {fs : FileSystem} {links d e : Nat} {names : List Bytes}
    (h : walk fs links d names = .ok e) : Leads fs links d names e := by
  induction links using Nat.strong_induction_on generalizing d e names with
  | _ links outer =>
    induction names generalizing d with
    | nil =>
      obtain ⟨hd, rfl⟩ := walk_nil.mp h
      exact .here hd
    | cons name names inner =>
      obtain ⟨links', d', more, hop, hrest⟩ := walk_cons.mp h
      refine .hop hop ?_
      obtain ⟨-, -, -, ⟨-, rfl, -, rfl⟩ | ⟨-, -, rfl, -, rfl⟩ | ⟨-, -, -, rfl, rfl⟩ |
        ⟨-, -, -, -, rfl, -, -⟩⟩ := hop
      · exact inner hrest
      · exact inner hrest
      · exact inner hrest
      · exact outer links' (Nat.lt_succ_self _) hrest

theorem walk_eq_ok {fs : FileSystem} {links d e : Nat} {names : List Bytes} :
    walk fs links d names = .ok e ↔ Leads fs links d names e := by
  refine ⟨leads_of_walk, fun h => ?_⟩
  induction h with
  | here hd => exact walk_nil.mpr ⟨hd, rfl⟩
  | hop hhop _ ih => exact walk_cons.mpr ⟨_, _, _, hhop, ih⟩

theorem Leads.split {fs : FileSystem} {links d e : Nat} {names rest : List Bytes}
    (h : Leads fs links d (names ++ rest) e) :
    ∃ links' m, Leads fs links d names m ∧ Leads fs links' m rest e := by
  generalize hall : names ++ rest = all at h
  induction h generalizing names with
  | here hd =>
    obtain ⟨rfl, rfl⟩ := List.append_eq_nil_iff.mp hall
    exact ⟨0, _, .here hd, .here hd⟩
  | @hop links d links' d' e name tail more hhop hrest ih =>
    cases names with
    | nil =>
      obtain rfl : rest = name :: tail := hall
      obtain ⟨dir, hd, -⟩ := id hhop
      exact ⟨links, d, .here (List.getElem?_eq_some_iff.mp hd).1, .hop hhop hrest⟩
    | cons name' names =>
      obtain ⟨rfl, rfl⟩ := List.cons.inj hall
      obtain ⟨k, m, hnames, hm⟩ := ih (List.append_assoc more names rest)
      exact ⟨k, m, .hop hhop hnames, hm⟩

/-- A walk that ends in `d` goes on to a directory listed there. -/
theorem Leads.concat {fs : FileSystem} {links start d e : Nat} {names : List Bytes} {name : Bytes}
    {dir : Directory} (h : Leads fs links start names d) (hd : fs.directories[d]? = some dir)
    (hs : dir.searchable) (hdot : name ≠ dot) (hdd : name ≠ dotDot)
    (hl : dir.lookup name = some (.directory e)) (he : e < fs.directories.length) :
    Leads fs links start (names ++ [name]) e := by
  induction h with
  | here => exact .hop ⟨dir, hd, hs, .inr (.inr (.inl ⟨hdot, hdd, hl, rfl, rfl⟩))⟩ (.here he)
  | hop hhop _ ih => exact .hop hhop (List.append_assoc .. ▸ ih hd)

/-! ## Adding names -/

/-- `fs'` has every name `fs` has. -/
structure Grows (fs fs' : FileSystem) : Prop where
  cwd : fs'.cwd = fs.cwd
  length : fs.directories.length ≤ fs'.directories.length
  directory : ∀ (d : Nat) (dir : Directory), fs.directories[d]? = some dir →
    ∃ dir' : Directory, fs'.directories[d]? = some dir' ∧ dir'.parent = dir.parent ∧
    dir'.searchable = dir.searchable ∧ ∀ name node, dir.lookup name = some node →
    dir'.lookup name = some node

theorem Leads.mono {fs fs' : FileSystem} (hgrows : Grows fs fs') {links d e : Nat}
    {names : List Bytes} (h : Leads fs links d names e) : Leads fs' links d names e := by
  induction h with
  | here hd => exact .here (Nat.lt_of_lt_of_le hd hgrows.length)
  | hop hhop _ ih =>
    obtain ⟨dir, hd, hs, hcase⟩ := hhop
    obtain ⟨dir', hd', hparent, hsearch, hlookup⟩ := hgrows.directory _ dir hd
    refine .hop ⟨dir', hd', hsearch ▸ hs, ?_⟩ ih
    rcases hcase with h | ⟨hdot, hdd, hlinks, hto, hmore⟩ | ⟨hdot, hdd, hl, hrest⟩ |
      ⟨hdot, hdd, target, hl, hrest⟩
    · exact .inl h
    · exact .inr (.inl ⟨hdot, hdd, hlinks, hparent ▸ hto, hmore⟩)
    · exact .inr (.inr (.inl ⟨hdot, hdd, hlookup _ _ hl, hrest⟩))
    · exact .inr (.inr (.inr ⟨hdot, hdd, target, hlookup _ _ hl, hrest⟩))

theorem addDirectory_getElem {fs : FileSystem} (d : Nat) (name : Bytes) {i : Nat} {dir : Directory}
    (hi : fs.directories[i]? = some dir) :
    (addDirectory fs d name).directories[i]? = some (if d = i then { dir with
      entries := (name, .directory fs.directories.length) :: dir.entries } else dir) := by
  have hlt := (List.getElem?_eq_some_iff.mp hi).1
  rw [addDirectory, List.getElem?_append_left (by simpa using hlt), List.getElem?_modify, hi]
  split <;> rfl

theorem addDirectory_grows {fs : FileSystem} {d : Nat} {dir : Directory} {name : Bytes}
    (hd : fs.directories[d]? = some dir) (hfree : dir.lookup name = none) :
    Grows fs (addDirectory fs d name) := by
  refine ⟨rfl, by simp [addDirectory], fun i dir₁ hi => ⟨_, addDirectory_getElem d name hi, ?_⟩⟩
  by_cases hid : d = i
  · subst hid
    obtain rfl : dir₁ = dir := Option.some.inj (hi.symm.trans hd)
    rw [if_pos rfl]
    refine ⟨rfl, rfl, fun n node hn => ?_⟩
    have hne : name ≠ n := by
      rintro rfl
      rw [hfree] at hn
      cases hn
    simpa [Directory.lookup, hne] using hn
  · rw [if_neg hid]
    exact ⟨rfl, rfl, fun _ _ h => h⟩

/-! ## `mkdir` -/

/-- What `mkdir` does once the parent is known. -/
theorem mkdir_eq {fs : FileSystem} {path name : Bytes} {init : List Bytes} {d : Nat}
    {dir : Directory} (hne : path ≠ []) (hpath : components path = init ++ [name])
    (hparent : Leads fs maxLinks (start fs.cwd path) init d)
    (hd : fs.directories[d]? = some dir) :
    mkdir fs path =
      if ¬ dir.searchable then .error .denied
      else if name = dot ∨ name = dotDot ∨ (dir.lookup name).isSome then .error .alreadyExists
      else if ¬ dir.admits name then .error .denied
      else .ok (addDirectory fs d name) := by
  have hparent' : resolveParent fs path = .ok d := by
    rw [resolveParent, hpath, List.dropLast_concat]
    exact walk_eq_ok.mpr hparent
  rw [mkdir, if_neg hne, hpath, List.getLast?_concat]
  simp only [hparent', hd]

theorem mkdir_ok {fs fs' : FileSystem} {path : Bytes} (h : mkdir fs path = .ok fs') :
    Vacant fs path ∧ IsDirectory fs' path := by
  have hne : path ≠ [] := by
    rintro rfl
    cases h
  rcases List.eq_nil_or_concat (components path) with hnil | ⟨init, name, hpath⟩
  · rw [mkdir, if_neg hne, hnil] at h
    cases h
  rw [List.concat_eq_append] at hpath
  cases hparent : resolveParent fs path with
  | error e =>
    rw [mkdir, if_neg hne, hpath, List.getLast?_concat] at h
    simp only [hparent] at h
    cases h
  | ok d =>
    have hleads : Leads fs maxLinks (start fs.cwd path) init d := by
      rw [resolveParent, hpath, List.dropLast_concat] at hparent
      exact leads_of_walk hparent
    cases hd : fs.directories[d]? with
    | none =>
      rw [mkdir, if_neg hne, hpath, List.getLast?_concat] at h
      simp only [hparent, hd] at h
      cases h
    | some dir =>
      rw [mkdir_eq hne hpath hleads hd] at h
      split_ifs at h with hs hfree hadmits
      simp only [not_or, Option.not_isSome_iff_eq_none] at hfree hs
      obtain ⟨hdot, hdd, hfree⟩ := hfree
      obtain rfl := Except.ok.inj h
      refine ⟨⟨name, by simp [hpath], hdot, hdd, d, hparent, dir, hd, hfree⟩,
        fs.directories.length, ?_⟩
      have hd' := addDirectory_getElem d name hd
      rw [if_pos rfl] at hd'
      rw [resolve, if_neg hne, hpath]
      refine walk_eq_ok.mpr
        ((hleads.mono (addDirectory_grows hd hfree)).concat hd' hs hdot hdd ?_ ?_)
      · simp [Directory.lookup]
      · simp [addDirectory]

/-- `mkdir` finds something wherever a longer path passes through. -/
theorem mkdir_of_passed {fs : FileSystem} {path : Bytes} {e : Nat} {rest : List Bytes}
    (hne : path ≠ [])
    (h : Leads fs maxLinks (start fs.cwd path) (components path ++ rest) e) :
    mkdir fs path = .error .alreadyExists := by
  rcases List.eq_nil_or_concat (components path) with hnil | ⟨init, name, hpath⟩
  · rw [mkdir, if_neg hne, hnil]
    rfl
  · rw [List.concat_eq_append] at hpath
    rw [hpath, List.append_assoc] at h
    obtain ⟨links, d, hinit, hlast⟩ := h.split
    obtain ⟨dir, hd, hs, hcase⟩ : ∃ dir, fs.directories[d]? = some dir ∧ dir.searchable ∧
        (name = dot ∨ name = dotDot ∨ (dir.lookup name).isSome) := by
      cases hlast with
      | hop hhop _ =>
        obtain ⟨dir, hd, hs, hcase⟩ := hhop
        refine ⟨dir, hd, hs, ?_⟩
        rcases hcase with ⟨hdot, -⟩ | ⟨-, hdd, -⟩ | ⟨-, -, hl, -⟩ | ⟨-, -, target, hl, -⟩
        · exact .inl hdot
        · exact .inr (.inl hdd)
        · exact .inr (.inr (by rw [hl]; rfl))
        · exact .inr (.inr (by rw [hl]; rfl))
    rw [mkdir_eq hne hpath hinit hd, if_neg (not_not.mpr hs), if_pos hcase]

theorem Vacant.mkdir_ne {fs : FileSystem} {path : Bytes} (h : Vacant fs path) :
    path ≠ [] ∧ mkdir fs path ≠ .error .alreadyExists := by
  obtain ⟨name, hname, hdot, hdd, d, hparent, dir, hd, hfree⟩ := h
  obtain ⟨init, hpath⟩ := List.getLast?_eq_some_iff.mp hname
  have hne : path ≠ [] := by
    rintro rfl
    cases hname
  refine ⟨hne, ?_⟩
  rw [resolveParent, hpath, List.dropLast_concat] at hparent
  rw [mkdir_eq hne hpath (leads_of_walk hparent) hd, hfree]
  have hnew : ¬ (name = dot ∨ name = dotDot ∨ (none : Option Node).isSome) := by simp [hdot, hdd]
  rw [if_neg hnew]
  split_ifs <;> exact fun h => by cases h

/-- `mkdir` reads a path's start and its components only. -/
theorem mkdir_congr {fs : FileSystem} {path path' : Bytes} (hne : path ≠ []) (hne' : path' ≠ [])
    (hc : components path = components path') (hs : start fs.cwd path = start fs.cwd path') :
    mkdir fs path = mkdir fs path' := by
  simp only [mkdir, if_neg hne, if_neg hne', resolveParent, hc, hs]

/-- A file can only be opened in a directory that is there. -/
theorem canOpen_in {fs : FileSystem} {directory name : Bytes} (hdir : directory ≠ [])
    (hne : name ≠ []) (hname : 47 ∉ name)
    (h : canOpen fs (directory ++ 47 :: name) = true) : IsDirectory fs directory := by
  have hc : components (directory ++ 47 :: name) = components directory ++ [name] := by
    rw [components_append, components_name hne hname]
  have hparent : resolveParent fs (directory ++ 47 :: name) = resolve fs directory := by
    rw [resolveParent, resolve, if_neg hdir, hc, List.dropLast_concat, start_append hdir]
  rw [canOpen, hc, List.getLast?_concat, hparent] at h
  cases hr : resolve fs directory with
  | error e => simp [hr] at h
  | ok d => exact ⟨d, hr⟩

end ForgeOps.Directories
