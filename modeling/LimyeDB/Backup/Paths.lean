/-
  PATHS IN A BACKUP: the lexical path functions of package `filepath`, the check of an archive's entry names, and
  what `Restore` does with the names of an archive.

  Main result: `restore_within`. What `Restore` opens for writing lies in the data directory, whatever the archive
  holds; symbolic links are left out, as in the source's own check.
-/
import LimyeDB.Go.Bytes

namespace LimyeDB.Backup

open Go List

/-! ## Package filepath, on Unix -/

def slash : UInt8 := 0x2F

/-- "." -/
def dot : Bytes := [0x2E]

/-- ".." -/
def dotdot : Bytes := [0x2E, 0x2E]

/-- The elements so far with one more: "." adds nothing, and ".." takes the last one away. -/
def pushElem (rooted : Bool) (stack : List Bytes) (e : Bytes) : List Bytes :=
  if e = [] ∨ e = dot then stack
  else if e ≠ dotdot then stack ++ [e]
  else if stack ≠ [] ∧ stack.getLast? ≠ some dotdot then stack.dropLast
  else if rooted then stack
  else stack ++ [dotdot]

def elements (rooted : Bool) (path : Bytes) : List Bytes := (path.splitOn slash).foldl (pushElem rooted) []

def isAbs (path : Bytes) : Bool := path.head? == some slash

def clean (path : Bytes) : Bytes :=
  let es := elements (isAbs path) path
  if isAbs path then slash :: [slash].intercalate es
  else if es = [] then dot
  else [slash].intercalate es

/-- Leading empty elements are passed over. -/
def join (elems : List Bytes) : Bytes :=
  match elems.dropWhile (· = []) with
  | [] => []
  | es => clean ([slash].intercalate es)

/-- `cwd` is what `os.Getwd` returns, or none for its error. -/
def abs (cwd : Option Bytes) (path : Bytes) : Option Bytes :=
  if isAbs path then some (clean path) else cwd.map fun wd => join [wd, path]

/-- The path up to its last slash, cleaned. -/
def dir (path : Bytes) : Bytes := clean (path.reverse.dropWhile (· ≠ slash)).reverse

def dropCommon : List Bytes → List Bytes → List Bytes × List Bytes
  | a :: as, b :: bs => if a = b then dropCommon as bs else (a :: as, b :: bs)
  | as, bs => (as, bs)

/-- `filepath.Rel` of two absolute paths, which returns no error for them. -/
def rel (basepath targpath : Bytes) : Bytes :=
  let (up, down) := dropCommon (elements true basepath) (elements true targpath)
  if up = [] ∧ down = [] then dot else [slash].intercalate (up.map (fun _ => dotdot) ++ down)

/-! ## The check -/

inductive PathError where
  | absolute
  | traversal
  | escapes
  | getwd
  deriving DecidableEq, Repr

def PathError.message : PathError → String
  | .absolute => "absolute paths not allowed"
  | .traversal => "path contains directory traversal"
  | .escapes => "path escapes base directory"
  | .getwd => "getwd"

def sanitizeTarPath (cwd : Option Bytes) (baseDir tarPath : Bytes) : Except PathError Bytes :=
  if isAbs tarPath then .error .absolute
  else if dotdot <+: tarPath ∨ contains tarPath (slash :: dotdot ++ [slash]) ∨ slash :: dotdot <:+ tarPath then
    .error .traversal
  else if dotdot <+: clean tarPath then .error .escapes
  else
    let targetPath := join [baseDir, clean tarPath]
    match abs cwd baseDir, abs cwd targetPath with
    | some absBase, some absTarget =>
      if absBase ++ [slash] <+: absTarget ∨ absTarget = absBase then .ok targetPath else .error .escapes
    | _, _ => .error .getwd

/-! ## Restore -/

def maxFileSize : Int := 2 ^ 30

/-- "metadata.json" -/
def metadataName : Bytes := [0x6D, 0x65, 0x74, 0x61, 0x64, 0x61, 0x74, 0x61, 0x2E, 0x6A, 0x73, 0x6F, 0x6E]

structure RestoreOptions where
  Collections : List Bytes
  OverwriteExisting : Bool

/-- An entry of the archive, with what the system answers while it is restored: whether its bytes are metadata,
    whether `os.Stat` finds the target, and whether the calls for the directory, the file and the copy succeed. -/
structure Entry where
  Name : Bytes
  Size : Int
  metadata : Bool
  stat : Bool
  mkdirAll : Bool
  openFile : Bool
  copy : Bool

/-- A call that changes the file system. -/
inductive FileOp where
  | mkdirAll (path : Bytes)
  | openFile (path : Bytes)
  deriving DecidableEq

inductive RestoreError where
  | system
  | path (e : PathError)
  | illegal (name : Bytes)
  | size (name : Bytes)
  deriving DecidableEq

def restoreEntry (cwd : Option Bytes) (dataDir : Bytes) (opts : RestoreOptions) (header : Entry) :
    List FileOp × Option RestoreError :=
  if header.Name = metadataName then ([], if header.metadata then none else some .system)
  else if opts.Collections ≠ [] ∧ !opts.Collections.any (· == dir header.Name) then ([], none)
  else
    match sanitizeTarPath cwd dataDir header.Name with
    | .error e => ([], some (.path e))
    | .ok targetPath =>
      match abs cwd dataDir, abs cwd targetPath with
      | some absBase, some absTarget =>
        if dotdot <+: rel absBase absTarget then ([], some (.illegal header.Name))
        else if header.stat ∧ ¬opts.OverwriteExisting then ([], none)
        else
          let made := [FileOp.mkdirAll (dir targetPath)]
          if ¬header.mkdirAll then (made, some .system)
          else if maxFileSize < header.Size then (made, some (.size header.Name))
          else (made ++ [.openFile (clean targetPath)],
            if header.openFile ∧ header.copy then none else some .system)
      | _, _ => ([], some .system)

/-- The entries in their order, up to the first one that fails. -/
def restore (cwd : Option Bytes) (dataDir : Bytes) (opts : RestoreOptions) :
    List Entry → List FileOp × Option RestoreError
  | [] => ([], none)
  | header :: entries =>
    match restoreEntry cwd dataDir opts header with
    | (ops, some e) => (ops, some e)
    | (ops, none) => (ops ++ (restore cwd dataDir opts entries).1, (restore cwd dataDir opts entries).2)

/-! ## Where a path leads -/

structure Normal (e : Bytes) : Prop where
  nonempty : e ≠ []
  notDot : e ≠ dot
  notDotdot : e ≠ dotdot
  plain : slash ∉ e

def rooted (es : List Bytes) : Bytes := slash :: [slash].intercalate es

theorem plain_of_mem_splitOn {e s : Bytes} (h : e ∈ s.splitOn slash) : slash ∉ e := by
  induction s generalizing e with
  | nil => simp_all
  | cons b s ih =>
    rw [splitOn_cons_eq_if_modifyHead] at h
    split_ifs at h with hb
    · rcases mem_cons.mp h with rfl | h
      · exact not_mem_nil
      · exact ih h
    · obtain ⟨x, xs, hx⟩ := exists_cons_of_ne_nil (splitOn_ne_nil (a := slash) s)
      rw [hx, modifyHead_cons, mem_cons] at h
      rcases h with rfl | h
      · have hin : slash ∉ x := ih (hx ▸ mem_cons_self)
        have hne : slash ≠ b := fun heq => hb (by simp [heq])
        exact fun hmem => (mem_cons.mp hmem).elim hne hin
      · exact ih (hx ▸ mem_cons_of_mem _ h)

/-- The names a path leads to from `start`. -/
def walk (start : List Bytes) (path : Bytes) : List Bytes := (path.splitOn slash).foldl (pushElem true) start

/-- Where a path starts from: the root, or the working directory. -/
def start (cwd : Option Bytes) (path : Bytes) : Option (List Bytes) :=
  if isAbs path then some [] else cwd.map (elements true)

theorem mem_pushElem {r : Bool} {stack : List Bytes} {e x : Bytes} (h : x ∈ pushElem r stack e) :
    x ∈ stack ∨ x = e ∧ e ≠ [] ∧ e ≠ dot ∧ (r = true → e ≠ dotdot) := by
  unfold pushElem at h
  split_ifs at h with hnone hname hback hroot
  · exact .inl h
  · refine (mem_append.mp h).imp_right fun hx => ⟨mem_singleton.mp hx, ?_⟩
    exact ⟨fun h => hnone (.inl h), fun h => hnone (.inr h), fun _ => hname⟩
  · exact .inl (dropLast_subset _ h)
  · exact .inl h
  · refine (mem_append.mp h).imp_right fun hx => ⟨(mem_singleton.mp hx).trans (not_not.mp hname).symm, ?_⟩
    exact ⟨fun h => hnone (.inl h), fun h => hnone (.inr h), fun h => absurd h hroot⟩

theorem walk_normal {start : List Bytes} (h : ∀ x ∈ start, Normal x) (path : Bytes) :
    ∀ x ∈ walk start path, Normal x := by
  refine foldlRecOn (motive := fun stack => ∀ x ∈ stack, Normal x) _ _ h fun stack hstack e he x hx => ?_
  rcases mem_pushElem hx with hx | ⟨rfl, hne, hdot, hdotdot⟩
  · exact hstack x hx
  · exact ⟨hne, hdot, hdotdot rfl, plain_of_mem_splitOn he⟩

variable {cwd : Option Bytes}

variable {path : Bytes}

theorem start_normal {s : List Bytes} (h : start cwd path = some s) :
    ∀ x ∈ s, Normal x := by
  unfold start at h
  split_ifs at h
  · cases h
    exact nofun
  · obtain ⟨wd, -, rfl⟩ := Option.map_eq_some_iff.mp h
    exact walk_normal (fun _ h => absurd h not_mem_nil) wd

/-- Behind an absolute path, a slash and a path go on from its names. -/
theorem clean_append {wd : Bytes} (h : isAbs wd) (path : Bytes) :
    clean (wd ++ slash :: path) = rooted (walk (elements true wd) path) := by
  have habs : isAbs (wd ++ slash :: path) := by
    cases wd with
    | nil => rfl
    | cons b wd => exact h
  simp only [clean, habs, if_true, rooted, elements, walk, splitOn_append_cons_self, foldl_append]

theorem abs_eq (hcwd : ∀ wd, cwd = some wd → isAbs wd) (path : Bytes) :
    abs cwd path = (start cwd path).map fun s => rooted (walk s path) := by
  unfold abs start
  split_ifs with habs
  · simp only [clean, habs, if_true, Option.map_some, rooted, elements, walk]
  · cases cwd with
    | none => rfl
    | some wd =>
      have hrooted := hcwd wd rfl
      cases wd with
      | nil => cases hrooted
      | cons b wd => simpa [join] using clean_append hrooted path

theorem abs_rooted (hcwd : ∀ wd, cwd = some wd → isAbs wd) {q : Bytes}
    (h : abs cwd path = some q) :
    ∃ s, start cwd path = some s ∧ (∀ e ∈ walk s path, Normal e) ∧ q = rooted (walk s path) := by
  rw [abs_eq hcwd] at h
  obtain ⟨s, hs, rfl⟩ := Option.map_eq_some_iff.mp h
  exact ⟨s, hs, walk_normal (start_normal hs) path, rfl⟩

/-- The names of an absolute path stand between its slashes. -/
theorem splitOn_rooted {A : List Bytes} (hne : A ≠ []) (h : ∀ e ∈ A, Normal e) :
    (rooted A).splitOn slash = [] :: A := by
  rw [rooted, splitOn_cons_eq_if_modifyHead, if_pos (by simp), splitOn_intercalate slash (fun e he => (h e he).plain) hne]

theorem prefix_of_rooted {A C : List Bytes} (hA : ∀ e ∈ A, Normal e) (hC : ∀ e ∈ C, Normal e)
    (h : rooted A ++ [slash] <+: rooted C ∨ rooted C = rooted A) : A <+: C := by
  cases A with
  | nil => exact nil_prefix
  | cons a A =>
    cases C with
    | nil =>
      have hlong : 1 < (rooted (a :: A)).length := by
        have hne := (hA a mem_cons_self).nonempty
        cases A <;> simp [rooted, intercalate_cons_cons, length_pos_iff, hne]
      have hone : (rooted []).length = 1 := rfl
      rcases h with h | h
      · have hlen := h.length_le
        rw [length_append] at hlen
        omega
      · rw [h] at hone
        omega
    | cons c C =>
      have hc := splitOn_rooted (cons_ne_nil _ _) hC
      have ha := splitOn_rooted (cons_ne_nil _ _) hA
      rcases h with ⟨t, ht⟩ | h
      · rw [← ht, append_assoc, singleton_append, splitOn_append_cons_self, ha, cons_append, cons.injEq] at hc
        exact ⟨_, hc.2⟩
      · rw [h, ha, cons.injEq] at hc
        rw [hc.2]

/-- **A path that passes is the base directory or below it**: the names it leads to begin with those of the base
    directory. -/
theorem sanitizeTarPath_below (hcwd : ∀ wd, cwd = some wd → isAbs wd)
    {baseDir tarPath target : Bytes} (h : sanitizeTarPath cwd baseDir tarPath = .ok target) :
    ∃ A s B, (∀ e ∈ A ++ B, Normal e) ∧ abs cwd baseDir = some (rooted A) ∧
      start cwd target = some s ∧ walk s target = A ++ B := by
  unfold sanitizeTarPath at h
  split_ifs at h
  simp only at h
  split at h
  · rename_i absBase absTarget hbase htarget
    split_ifs at h with hbelow
    cases h
    obtain ⟨s₀, -, hA, rfl⟩ := abs_rooted hcwd hbase
    obtain ⟨s, hs, hC, rfl⟩ := abs_rooted hcwd htarget
    obtain ⟨B, hB⟩ := prefix_of_rooted hA hC hbelow
    exact ⟨walk s₀ baseDir, s, B, hB ▸ hC, hbase, hs, hB.symm⟩
  · cases h

/-! ## Cleaning and the directory of a path -/

/-- An element that does more than stand for the place itself. -/
def Real (e : Bytes) : Prop := e ≠ [] ∧ e ≠ dot

/-- To clean one more element off is to walk one more element. -/
theorem foldl_pushElem (start : List Bytes) {stack : List Bytes} (h : ∀ x ∈ stack, Real x) (e : Bytes) :
    (pushElem false stack e).foldl (pushElem true) start =
      pushElem true (stack.foldl (pushElem true) start) e := by
  by_cases hnone : e = [] ∨ e = dot
  · simp only [pushElem, if_pos hnone]
  by_cases hback : e = dotdot ∧ stack ≠ [] ∧ stack.getLast? ≠ some dotdot
  · obtain ⟨rfl, hne, hlast⟩ := hback
    obtain ⟨init, x, rfl⟩ := (eq_nil_or_concat stack).resolve_left hne
    simp only [concat_eq_append] at h hne hlast ⊢
    have hx : Real x := h x (by simp)
    have hxd : x ≠ dotdot := fun heq => hlast (by simp [heq])
    -- x was walked into by the element before, and ".." leaves it again
    have hinto : ∀ t, pushElem true t x = t ++ [x] := fun t => by
      rw [pushElem, if_neg (not_or.mpr hx), if_pos hxd]
    have hout : ∀ t, pushElem true (t ++ [x]) dotdot = t := fun t => by
      simp [pushElem, dotdot, dot, show x ≠ [0x2E, 0x2E] from hxd]
    rw [foldl_append, foldl_cons, foldl_nil, hinto, hout, pushElem, if_neg hnone, if_neg (not_not.mpr rfl),
      if_pos ⟨hne, hlast⟩, dropLast_concat]
  · have hpush : pushElem false stack e = stack ++ [e] := by
      unfold pushElem
      rw [if_neg hnone]
      split_ifs with hname hcond hfalse
      · rfl
      · exact absurd ⟨not_not.mp hname, hcond⟩ hback
      · cases hfalse
      · rw [not_not.mp hname]
    rw [hpush, foldl_append, foldl_cons, foldl_nil]

variable {es : List Bytes}

theorem foldl_real (h : ∀ x ∈ es, slash ∉ x) :
    ∀ x ∈ es.foldl (pushElem false) [], Real x ∧ slash ∉ x := by
  refine foldlRecOn (motive := fun stack => ∀ x ∈ stack, Real x ∧ slash ∉ x) _ _ nofun fun stack hstack e he x hx => ?_
  rcases mem_pushElem hx with hx | ⟨rfl, hne, hdot, -⟩
  · exact hstack x hx
  · exact ⟨⟨hne, hdot⟩, h x he⟩

theorem foldl_elements (start : List Bytes) (h : ∀ x ∈ es, slash ∉ x) :
    (es.foldl (pushElem false) []).foldl (pushElem true) start = es.foldl (pushElem true) start := by
  induction es using reverseRecOn with
  | nil => rfl
  | append_singleton es e ih =>
    have hes : ∀ x ∈ es, slash ∉ x := fun x hx => h x (mem_append_left _ hx)
    rw [foldl_append, foldl_cons, foldl_nil, foldl_pushElem start (fun x hx => (foldl_real hes x hx).1), ih hes,
      foldl_append, foldl_cons, foldl_nil]

theorem foldl_normal (start : List Bytes) (h : ∀ e ∈ es, Normal e) :
    es.foldl (pushElem true) start = start ++ es := by
  induction es generalizing start with
  | nil => simp
  | cons e es ih =>
    have he := h e mem_cons_self
    rw [foldl_cons, ih _ fun x hx => h x (mem_cons_of_mem _ hx), pushElem,
      if_neg (not_or.mpr ⟨he.nonempty, he.notDot⟩), if_pos he.notDotdot, append_assoc, singleton_append]

theorem walk_rooted (h : ∀ e ∈ es, Normal e) : walk [] (rooted es) = es := by
  by_cases hne : es = []
  · rw [hne]
    rfl
  · rw [walk, splitOn_rooted hne h]
    exact foldl_normal [] h

theorem not_isAbs_intercalate (h : ∀ x ∈ es, Real x ∧ slash ∉ x) :
    isAbs ([slash].intercalate es) = false := by
  match es, h with
  | [], _ => rfl
  | [] :: _, h => exact absurd rfl (h [] mem_cons_self).1.1
  | (b :: e) :: es, h =>
    have hb : b ≠ slash := fun heq => (h _ mem_cons_self).2 (heq ▸ mem_cons_self)
    cases es <;> simpa [isAbs, intercalate_cons_cons] using hb

/-- A cleaned path leads where the path leads. -/
theorem walk_clean {s : List Bytes} (h : start cwd path = some s) :
    start cwd (clean path) = some s ∧ walk s (clean path) = walk s path := by
  by_cases habs : isAbs path
  · have hclean : clean path = rooted (walk [] path) := by
      simp only [clean, habs, if_true, rooted, elements, walk]
    rw [start, if_pos habs, Option.some.injEq] at h
    rw [hclean, ← h, walk_rooted (walk_normal (fun _ h => absurd h not_mem_nil) path)]
    exact ⟨rfl, rfl⟩
  · have hplain : ∀ x ∈ path.splitOn slash, slash ∉ x := fun x hx => plain_of_mem_splitOn hx
    have hwalk := foldl_elements s hplain
    have hreal := foldl_real hplain
    rw [start, if_neg habs] at h
    by_cases hes : elements false path = []
    · have hclean : clean path = dot := by simp only [clean, habs, hes, if_true, if_false, Bool.false_eq_true]
      rw [show (path.splitOn slash).foldl (pushElem false) [] = [] from hes] at hwalk
      rw [hclean]
      exact ⟨h, hwalk⟩
    · have hclean : clean path = [slash].intercalate (elements false path) := by
        simp only [clean, habs, hes, if_false, Bool.false_eq_true]
      have hnot : ¬isAbs (clean path) := by
        rw [hclean, elements, not_isAbs_intercalate hreal]
        exact Bool.false_ne_true
      refine ⟨by rw [start, if_neg hnot, h], ?_⟩
      have hsplit : (clean path).splitOn slash = elements false path :=
        hclean ▸ splitOn_intercalate slash (fun e he => (hreal e he).2) hes
      rw [walk, hsplit]
      exact hwalk

theorem splitOn_plain {v : Bytes} (h : slash ∉ v) : v.splitOn slash = [v] := by
  have hone : ([slash].intercalate [v]).splitOn slash = [v] :=
    splitOn_intercalate slash (by simpa using h) (cons_ne_nil _ _)
  simpa using hone

/-- One element leads from the directory of a path to the path. -/
theorem walk_dir {s : List Bytes} (h : start cwd path = some s) :
    start cwd (dir path) = some s ∧ ∃ e, walk s path = pushElem true (walk s (dir path)) e := by
  by_cases hslash : slash ∈ path
  · obtain ⟨v, u, huv, hv⟩ := eq_append_cons_of_mem (mem_reverse.mpr hslash)
    have hpath : path = u.reverse ++ slash :: v.reverse := by
      rw [← reverse_reverse path, huv]
      simp
    have hdir : dir path = clean (u.reverse ++ slash :: []) := by
      rw [dir, huv, dropWhile_append_of_pos fun b hb => decide_eq_true (ne_of_mem_of_not_mem hb hv),
        dropWhile_cons_of_neg (by simp), reverse_cons]
    have hstart : start cwd (u.reverse ++ slash :: []) = start cwd path := by
      rw [hpath]
      cases u.reverse <;> rfl
    obtain ⟨hs, hw⟩ := walk_clean (hstart.trans h)
    refine ⟨hdir ▸ hs, v.reverse, ?_⟩
    rw [hdir, hw, hpath]
    have hlast : v.reverse.splitOn slash = [v.reverse] := splitOn_plain (by simpa using hv)
    simp only [walk, splitOn_append_cons_self, foldl_append, hlast]
    rfl
  · have hdir : dir path = dot := by
      rw [dir, dropWhile_eq_nil_iff.mpr fun b hb => decide_eq_true (ne_of_mem_of_not_mem (mem_reverse.mp hb) hslash)]
      rfl
    have hrel : ¬isAbs path := by
      cases path with
      | nil => exact Bool.false_ne_true
      | cons b path => exact fun hb => hslash (by simp_all [isAbs])
    rw [start, if_neg hrel] at h
    refine ⟨hdir ▸ h, path, ?_⟩
    rw [hdir, walk, splitOn_plain hslash]
    rfl

theorem below_of_pushElem {A B W : List Bytes} {e : Bytes} (h : pushElem true W e = A ++ B) :
    A <+: W ∨ W = A.dropLast := by
  unfold pushElem at h
  split_ifs at h with hnone hname hback hroot
  · exact .inl ⟨B, h.symm⟩
  · rcases eq_nil_or_concat B with rfl | ⟨B, x, rfl⟩
    · rw [append_nil] at h
      exact .inr (by rw [← h, dropLast_concat])
    · rw [concat_eq_append, ← append_assoc] at h
      exact .inl ⟨B, (append_inj_left' h rfl).symm⟩
  · exact .inl (IsPrefix.trans ⟨B, h.symm⟩ <| dropLast_prefix W)
  · exact .inl ⟨B, h.symm⟩
  · exact absurd rfl hroot

/-- The calls of one entry: the directory of a target that passes the check, and then the target itself. -/
theorem restoreEntry_ops {dataDir : Bytes} {opts : RestoreOptions} {header : Entry}
    {op : FileOp} (h : op ∈ (restoreEntry cwd dataDir opts header).1) :
    ∃ target, sanitizeTarPath cwd dataDir header.Name = .ok target ∧
      (op = .mkdirAll (dir target) ∨ op = .openFile (clean target)) := by
  unfold restoreEntry at h
  split at h
  · cases h
  split at h
  · cases h
  split at h
  · cases h
  · rename_i target hok
    refine ⟨target, hok, ?_⟩
    split at h
    · split_ifs at h <;> simp_all
    · cases h

theorem restore_ops {dataDir : Bytes} {opts : RestoreOptions} {entries : List Entry}
    {op : FileOp} (h : op ∈ (restore cwd dataDir opts entries).1) :
    ∃ header ∈ entries, op ∈ (restoreEntry cwd dataDir opts header).1 := by
  induction entries with
  | nil => cases h
  | cons header entries ih =>
    rw [restore] at h
    split at h
    · rename_i ops e hentry
      exact ⟨header, mem_cons_self, hentry ▸ h⟩
    · rename_i ops hentry
      rcases mem_append.mp h with h | h
      · exact ⟨header, mem_cons_self, hentry ▸ h⟩
      · obtain ⟨header', hmem, hop⟩ := ih h
        exact ⟨header', mem_cons_of_mem _ hmem, hop⟩

/-- **A path that passes is the base directory or below it, and Restore writes nothing elsewhere**: the absolute
    path of each file that an archive makes it open begins with the names of the data directory. Each directory it
    asks for does too, or it is the one that holds the data directory, for an entry that names that directory
    itself. -/
theorem restore_within (cwd : Option Bytes) (hcwd : ∀ wd, cwd = some wd → isAbs wd) (dataDir : Bytes) :
    (∀ tarPath target, sanitizeTarPath cwd dataDir tarPath = .ok target →
      ∃ A B, (∀ e ∈ A ++ B, Normal e) ∧ abs cwd dataDir = some (rooted A) ∧
        abs cwd target = some (rooted (A ++ B))) ∧
    ∀ opts entries, ∀ op ∈ (restore cwd dataDir opts entries).1,
      ∃ A C, (∀ e ∈ C, Normal e) ∧ abs cwd dataDir = some (rooted A) ∧
        match op with
        | .openFile path => abs cwd path = some (rooted C) ∧ A <+: C
        | .mkdirAll path => abs cwd path = some (rooted C) ∧ (A <+: C ∨ C = A.dropLast) := by
  constructor
  · intro tarPath target h
    obtain ⟨A, s, B, hnormal, hbase, hs, hwalk⟩ := sanitizeTarPath_below hcwd h
    exact ⟨A, B, hnormal, hbase, by rw [abs_eq hcwd, hs, Option.map_some, hwalk]⟩
  · intro opts entries op hop
    obtain ⟨header, -, hop⟩ := restore_ops hop
    obtain ⟨target, hok, hop⟩ := restoreEntry_ops hop
    obtain ⟨A, s, B, hnormal, hbase, hs, hwalk⟩ := sanitizeTarPath_below hcwd hok
    rcases hop with rfl | rfl
    · obtain ⟨hd, e, he⟩ := walk_dir hs
      refine ⟨A, walk s (dir target), walk_normal (start_normal hs) _, hbase, ?_, ?_⟩
      · rw [abs_eq hcwd, hd, Option.map_some]
      · exact below_of_pushElem (he.symm.trans hwalk)
    · obtain ⟨hc, hclean⟩ := walk_clean hs
      refine ⟨A, A ++ B, hnormal, hbase, ?_, prefix_append A B⟩
      rw [abs_eq hcwd, hc, Option.map_some, hclean, hwalk]

/-- The metadata, the file "c/.//p", and an entry "c/../../e" that climbs out. -/
def climbing : List Entry :=
  [⟨metadataName, 2, true, false, true, true, true⟩,
    ⟨[99, slash, 46, slash, slash, 112], 5, false, false, true, true, true⟩,
    ⟨[99, slash, 46, 46, slash, 46, 46, slash, 101], 5, false, false, true, true, true⟩]

/-- With data directory "d" and working directory "/w", the file goes to "d/c/p", and the last entry is refused. -/
theorem restore_within_data :
    restore (some [slash, 119]) [100] ⟨[], true⟩ climbing =
      ([.mkdirAll [100, slash, 99], .openFile [100, slash, 99, slash, 112]], some (.path .traversal)) ∧
    (∃ A B, (∀ e ∈ A ++ B, Normal e) ∧ abs (some [slash, 119]) [100] = some (rooted A) ∧
      abs (some [slash, 119]) [100, slash, 99, slash, 112] = some (rooted (A ++ B))) ∧
    ∃ A C, (∀ e ∈ C, Normal e) ∧ abs (some [slash, 119]) [100] = some (rooted A) ∧
      abs (some [slash, 119]) [100, slash, 99] = some (rooted C) ∧ (A <+: C ∨ C = A.dropLast) := by
  have hwd : ∀ wd, some [slash, 119] = some wd → isAbs wd := by
    intro wd h
    cases h
    rfl
  have hwithin := restore_within (some [slash, 119]) hwd [100]
  exact ⟨by decide, hwithin.1 [99, slash, 46, slash, slash, 112] _ (by decide),
    hwithin.2 ⟨[], true⟩ climbing (.mkdirAll [100, slash, 99]) (by decide)⟩

end LimyeDB.Backup
