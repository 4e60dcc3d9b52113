import Mathlib.Data.List.TakeWhile
import Styling.Address.Path
import Styling.Proofs.Address.Percent

/-! # Paths read back

However a path is built, no segment of it is a dot segment and every character stands for itself.
So the path of a file address, read behind a root, comes to itself.
-/
namespace Styling

namespace AddressPath
variable {path s front last : List Char}

/-! ### Dot segments -/

def IsName (segment : List Char) : Prop :=
  isSingleDot segment = false ∧ isDoubleDot segment = false

theorem isName_of_head {c : Char} (hdot : c ≠ '.') (hpercent : c ≠ '%') (cs : List Char) :
    IsName (c :: cs) := by
  constructor
  · simp [isSingleDot, encodedDot, hdot, hpercent]
  · simp [isDoubleDot, encodedDot, hdot.symm, hpercent.symm]

theorem isName_nil : IsName [] := ⟨rfl, rfl⟩

theorem isName_of_isDrive (h : isDrive s = true) (cs : List Char) :
    IsName (s ++ cs) := by
  unfold isDrive at h
  split at h
  · rename_i a m
    have ha : a.isAlpha = true := (Bool.and_eq_true_iff.mp h).1
    refine isName_of_head ?_ ?_ _ <;>
      · rintro rfl
        exact absurd ha (by decide)
  · cases h

theorem isDrive_of_isWrittenDrive (h : isWrittenDrive s = true) : isDrive s = true := by
  unfold isWrittenDrive at h
  split at h
  · simpa [isDrive, isDriveMark] using h
  · cases h

/-- No segment goes nowhere or up, and each character stands for itself. -/
structure Normal (path : List Char) : Prop where
  names : ∀ s ∈ pieces '/' path, IsName s
  plain : ∀ c ∈ path, Percent.Plain Percent.inPath c ∧ c ≠ '\\'

/-- The last segment of the path can go on: it is empty or a drive letter. -/
def Open (path : List Char) : Prop :=
  ∃ front last, pieces '/' path = front ++ [last] ∧ (last = [] ∨ isWrittenDrive last = true)

structure Segment (segment : List Char) : Prop where
  plain : ∀ c ∈ segment, Percent.Plain Percent.inPath c ∧ c ≠ '\\'
  slashless : '/' ∉ segment

theorem plain_slash : Percent.Plain Percent.inPath '/' ∧ '/' ≠ '\\' := by
  refine ⟨⟨?_, ?_⟩, ?_⟩ <;> decide

theorem Normal.nil : Normal [] := ⟨by simp [pieces, piecesBy, isName_nil], by simp⟩

theorem Open.nil : Open [] := ⟨[], [], rfl, .inl rfl⟩

theorem Open.slash (path : List Char) : Open (path ++ ['/']) :=
  ⟨pieces '/' path, [], pieces_append_slash path [], .inl rfl⟩

theorem Normal.slash (h : Normal path) : Normal (path ++ ['/']) := by
  refine ⟨fun s hs => ?_, fun c hc => ?_⟩
  · rw [pieces_append_slash] at hs
    rcases List.mem_append.mp hs with hs | hs
    · exact h.names s hs
    · obtain rfl := List.mem_singleton.mp hs
      exact isName_nil
  · rcases List.mem_append.mp hc with hc | hc
    · exact h.plain c hc
    · obtain rfl := List.mem_singleton.mp hc
      exact plain_slash

theorem Normal.cut (h : Normal (front ++ '/' :: last)) : Normal front := by
  refine ⟨fun s hs => h.names s ?_, fun c hc => h.plain c (List.mem_append_left _ hc)⟩
  rw [pieces_append_slash]
  exact List.mem_append_left _ hs

theorem Normal.append (h : Normal path) (hopen : Open path) (hs : Segment s) (hname : IsName s) :
    Normal (path ++ s) := by
  obtain ⟨front, last, hpieces, hlast⟩ := hopen
  have hno : ∀ c ∈ s, (c == '/') = false := by
    intro c hc
    refine beq_eq_false_iff_ne.mpr ?_
    rintro rfl
    exact hs.slashless hc
  obtain ⟨front', last', hp, hall⟩ := piecesBy_append_of_not hno path
  obtain ⟨rfl, hl⟩ := List.append_inj' (hpieces.symm.trans hp) rfl
  obtain rfl := (List.cons.inj hl).1
  refine ⟨fun t ht => ?_, fun c hc => ?_⟩
  · rw [pieces, hall] at ht
    rcases List.mem_append.mp ht with ht | ht
    · refine h.names t ?_
      rw [hpieces]
      exact List.mem_append_left _ ht
    · obtain rfl := List.mem_singleton.mp ht
      rcases hlast with rfl | hdrive
      · exact hname
      · exact isName_of_isDrive (isDrive_of_isWrittenDrive hdrive) s
  · exact (List.mem_append.mp hc).elim (h.plain c) (hs.plain c)

/-! ### Leaving segments -/

theorem endsInSlash_iff : endsInSlash path = true ↔ ∃ front, path = front ++ ['/'] := by
  unfold endsInSlash
  rw [beq_iff_eq, List.getLast?_eq_some_iff]

theorem take_of_append (h : path = front ++ last) :
    path.take (path.length - last.length) = front := by
  subst h
  rw [List.length_append, Nat.add_sub_cancel, List.take_left]

/-- The last segment begins at the start or behind a slash. -/
theorem splitLast_eq (path : List Char) : ∃ last, '/' ∉ last ∧
    (path = last ∧ splitLast path = ([], last) ∨
      ∃ front, path = front ++ '/' :: last ∧ splitLast path = (front ++ ['/'], last)) := by
  have hpath : path = (path.reverse.dropWhile (· != '/')).reverse ++
      (path.reverse.takeWhile (· != '/')).reverse := by
    rw [← List.reverse_append, List.takeWhile_append_dropWhile, List.reverse_reverse]
  have hsplit : splitLast path = ((path.reverse.dropWhile (· != '/')).reverse,
      (path.reverse.takeWhile (· != '/')).reverse) :=
    Prod.ext (take_of_append hpath) rfl
  refine ⟨(path.reverse.takeWhile (· != '/')).reverse, fun h => ?_, ?_⟩
  · simpa using List.mem_takeWhile_imp (List.mem_reverse.mp h)
  · cases hfront : path.reverse.dropWhile (· != '/') with
    | nil =>
      rw [hfront] at hpath hsplit
      exact .inl ⟨hpath, hsplit⟩
    | cons c front =>
      have hc := List.head?_dropWhile_not (· != '/') path.reverse
      rw [hfront] at hc hpath hsplit
      obtain rfl : c = '/' := by simpa using hc
      refine .inr ⟨front.reverse, ?_, ?_⟩
      · simpa using hpath
      · simpa using hsplit

/-- A path without its last segment: nothing is left if that was all of it. -/
theorem pop_cases (file : Bool) (path : List Char) :
    pop file path = path ∨ (pop file path = [] ∧ '/' ∉ path) ∨
      ∃ front last, path = front ++ '/' :: last ∧ pop file path = front ++ ['/'] := by
  obtain ⟨last, hlast, ⟨hpath, hsplit⟩ | ⟨front, hpath, hsplit⟩⟩ := splitLast_eq path <;>
    rw [pop, hsplit] <;> dsimp only <;> split
  · exact .inl rfl
  · exact .inr (.inl ⟨rfl, hpath ▸ hlast⟩)
  · exact .inl rfl
  · exact .inr (.inr ⟨front, last, hpath, rfl⟩)

theorem dropSlash_cases (path : List Char) :
    dropSlash path = path ∨ path = dropSlash path ++ ['/'] ∧ dropSlash path ≠ [] := by
  unfold dropSlash
  split
  · rename_i h
    obtain ⟨hslash, hremovable⟩ := Bool.and_eq_true_iff.mp h
    obtain ⟨front, rfl⟩ := endsInSlash_iff.mp hslash
    rw [List.dropLast_concat]
    refine .inr ⟨rfl, ?_⟩
    rintro rfl
    exact absurd hremovable (by decide)
  · exact .inl rfl

theorem addSlash_cases (path : List Char) :
    addSlash path = path ∧ (∃ front, path = front ++ ['/']) ∨ addSlash path = path ++ ['/'] := by
  unfold addSlash
  split
  · exact .inl ⟨rfl, endsInSlash_iff.mp ‹_›⟩
  · exact .inr rfl

theorem Normal.pop (h : Normal path) (file : Bool) : Normal (pop file path) := by
  obtain heq | ⟨heq, -⟩ | ⟨front, last, rfl, heq⟩ := pop_cases file path <;> rw [heq]
  · exact h
  · exact Normal.nil
  · exact h.cut.slash

theorem Normal.dropSlash (h : Normal path) : Normal (dropSlash path) := by
  obtain heq | ⟨heq, -⟩ := dropSlash_cases path
  · rwa [heq]
  · rw [heq] at h
    exact h.cut

theorem Normal.addSlash (h : Normal path) : Normal (addSlash path) := by
  obtain ⟨heq, -⟩ | heq := addSlash_cases path <;> rw [heq]
  · exact h
  · exact h.slash

theorem open_addSlash (path : List Char) : Open (addSlash path) := by
  obtain ⟨heq, front, hfront⟩ | heq := addSlash_cases path <;> rw [heq]
  · exact hfront ▸ Open.slash front
  · exact Open.slash path

/-! ### Adding segments -/

/-- The segment as it is written behind the root of a file, where a drive letter gets a colon. -/
def Respells (segment name : List Char) : Prop :=
  name = segment ∨ ∃ a m, segment = [a, m] ∧ isDrive segment = true ∧ name = [a, ':']

/-- Everything that adding a segment can do. A slash is set behind a drive letter before. -/
theorem add_cases (file : Bool) (path segment : List Char) (slash : Bool) : ∃ start,
    (start = path ∨ start = path ++ ['/'] ∧ isWrittenDrive (path.drop 1) = true) ∧
    ((isDoubleDot segment = true ∧ add file path segment slash =
        if slash then addSlash (pop file (dropSlash start)) else pop file (dropSlash start)) ∨
      add file path segment slash = addSlash start ∨
      IsName segment ∧ ∃ name, Respells segment name ∧
        add file path segment slash = start ++ name ++ if slash then ['/'] else []) := by
  unfold add
  refine ⟨if file && isWrittenDrive (path.drop 1) && !segment.isEmpty then path ++ ['/'] else path,
    ?_, ?_⟩
  · split
    · rename_i h
      simp only [Bool.and_eq_true] at h
      exact .inr ⟨rfl, h.1.2⟩
    · exact .inl rfl
  · generalize (if file && isWrittenDrive (path.drop 1) && !segment.isEmpty then path ++ ['/']
      else path) = start
    dsimp only
    split
    · exact .inl ⟨‹_›, rfl⟩
    split
    · exact .inr (.inl rfl)
    rename_i hdouble hsingle
    refine .inr (.inr ⟨⟨by simpa using hsingle, by simpa using hdouble⟩, _, ?_, rfl⟩)
    split
    · split
      · rename_i a m h
        simp only [Bool.and_eq_true] at h
        exact .inr ⟨a, m, rfl, h.2, rfl⟩
      · exact .inl rfl
    · exact .inl rfl

theorem Respells.segment {name : List Char} (h : Respells s name) (hs : Segment s) :
    Segment name := by
  obtain rfl | ⟨a, m, rfl, -, rfl⟩ := h
  · exact hs
  · refine ⟨fun c hc => ?_, fun hc => hs.slashless ?_⟩
    · rcases List.mem_cons.mp hc with rfl | hc
      · exact hs.plain c List.mem_cons_self
      · obtain rfl := List.mem_singleton.mp hc
        refine ⟨⟨?_, ?_⟩, ?_⟩ <;> decide
    · have hcolon : '/' ≠ ':' := by decide
      obtain rfl : '/' = a := by simpa [hcolon] using hc
      exact List.mem_cons_self

theorem Respells.isName {name : List Char} (h : Respells s name) (hs : IsName s) :
    IsName name := by
  obtain rfl | ⟨a, m, rfl, hdrive, rfl⟩ := h
  · exact hs
  · refine List.append_nil [a, ':'] ▸ isName_of_isDrive (isDrive_of_isWrittenDrive ?_) []
    exact (Bool.and_eq_true_iff.mp hdrive).1

theorem Normal.add (h : Normal path) (hopen : Open path) (hs : Segment s) (file slash : Bool) :
    Normal (add file path s slash) ∧ (slash = true → Open (add file path s slash)) := by
  obtain ⟨start, hstart, hadd⟩ := add_cases file path s slash
  have hnormal : Normal start ∧ Open start := by
    obtain rfl | ⟨rfl, -⟩ := hstart
    · exact ⟨h, hopen⟩
    · exact ⟨h.slash, Open.slash path⟩
  obtain ⟨hnormal, hopen⟩ := hnormal
  obtain ⟨-, heq⟩ | heq | ⟨hname, name, hrespells, heq⟩ := hadd <;> rw [heq]
  · cases slash with
    | false => exact ⟨hnormal.dropSlash.pop file, by simp⟩
    | true => exact ⟨(hnormal.dropSlash.pop file).addSlash, fun _ => open_addSlash _⟩
  · exact ⟨hnormal.addSlash, fun _ => open_addSlash start⟩
  · have happend := hnormal.append hopen (hrespells.segment hs) (hrespells.isName hname)
    cases slash with
    | false => exact ⟨by simpa using happend, by simp⟩
    | true => exact ⟨happend.slash, fun _ => Open.slash _⟩

theorem Normal.addAll (h : Normal path) (hopen : Open path) (file : Bool)
    {segments : List (List Char)} (hsegments : ∀ s ∈ segments, Segment s) :
    Normal (addAll file path segments) := by
  induction segments generalizing path with
  | nil => exact h
  | cons s segments ih =>
    have hs := hsegments s List.mem_cons_self
    cases segments with
    | nil => exact (h.add hopen hs file false).1
    | cons t segments =>
      obtain ⟨hnormal, hopen⟩ := h.add hopen hs file true
      exact ih hnormal (hopen rfl) fun r hr => hsegments r (List.mem_cons_of_mem s hr)

theorem segment_of_mem {k : SchemeKind} {body : List Char} (hk : k.isSpecial = true)
    (h : s ∈ (piecesBy k.isSlash body).map (Percent.encode Percent.inPath)) : Segment s := by
  obtain ⟨piece, hpiece, rfl⟩ := List.mem_map.mp h
  have hmark (m : Char) (hslash : k.isSlash m = true) (hm : m ≠ '%' ∧ isHexDigit m = false) :
      m ∉ Percent.encode Percent.inPath piece := by
    intro hmem
    rcases Percent.mem_encode hmem with ⟨hpart, -⟩ | rfl | hdigit
    · rw [(of_mem_piecesBy hpiece hpart).2] at hslash
      cases hslash
    · exact hm.1 rfl
    · rw [hm.2] at hdigit
      cases hdigit
  refine ⟨fun c hc => ⟨Percent.plain_of_mem_encode Percent.spares_inPath hc, ?_⟩, ?_⟩
  · rintro rfl
    exact hmark _ (by simp [SchemeKind.isSlash, hk]) (by decide) hc
  · exact hmark _ (by simp [SchemeKind.isSlash]) (by decide)

/-! ### Settled paths -/

/-- A normal path behind a root, in which no second slash follows the first. -/
structure Settled (path : List Char) : Prop where
  normal : Normal path
  rooted : ∃ body, path = '/' :: body ∧ body.head? ≠ some '/'

theorem Normal.behind (h : Normal (front ++ '/' :: last)) : Normal last := by
  refine ⟨fun s hs => h.names s ?_, fun c hc => h.plain c (by simp [hc])⟩
  rw [pieces_append_slash]
  exact List.mem_append_right _ hs

theorem Normal.root (h : Normal path) : Normal ('/' :: path) := by
  refine ⟨fun s hs => ?_, fun c hc => ?_⟩
  · rw [← List.nil_append ('/' :: path), pieces_append_slash] at hs
    rcases List.mem_cons.mp hs with rfl | hs
    · exact isName_nil
    · exact h.names s hs
  · rcases List.mem_cons.mp hc with rfl | hc
    · exact plain_slash
    · exact h.plain c hc

theorem Normal.dropSlashes (h : Normal path) : Normal (path.dropWhile (· == '/')) := by
  induction path with
  | nil => exact h
  | cons c path ih =>
    by_cases hc : c = '/'
    · subst hc
      exact ih (show Normal ([] ++ '/' :: path) from h).behind
    · simpa [List.dropWhile_cons, hc] using h

theorem Normal.settled (h : Normal path) : Settled (trimRoot path) := by
  refine ⟨h.dropSlashes.root, _, rfl, fun hhead => ?_⟩
  have hnot := List.head?_dropWhile_not (· == '/') path
  rw [hhead] at hnot
  exact absurd hnot (by decide)

/-- A path goes on as a settled one, whatever text follows. -/
theorem settled_extend (h : Normal path) (hopen : Open path) (cs : List Char) :
    Settled (extend .file path cs).1 :=
  (h.addAll hopen _ fun _ hs => segment_of_mem rfl hs).settled

theorem isWrittenDrive_concat_slash (front : List Char) :
    isWrittenDrive (front ++ ['/']) = false := by
  refine Bool.eq_false_iff.mpr fun h => ?_
  unfold isWrittenDrive at h
  split at h
  · rename_i a heq
    have hlast := congrArg List.getLast? heq
    simp at hlast
  · cases h

theorem add_name (hs : IsName s) (c : Char) (front : List Char) (slash : Bool) :
    add true (c :: (front ++ ['/'])) s slash =
      c :: (front ++ ['/']) ++ s ++ if slash then ['/'] else [] := by
  have hlength : ((c :: (front ++ ['/'])).length == 1) = false := by simp
  unfold add
  rw [List.drop_one, List.tail_cons, isWrittenDrive_concat_slash]
  simp only [Bool.true_and, Bool.false_and, Bool.false_eq_true, if_false, hs.1, hs.2, hlength]
  congr 2
  split <;> rfl

theorem addAll_names {segments : List (List Char)} (hne : segments ≠ [])
    (hnames : ∀ s ∈ segments, IsName s) (c : Char) (front : List Char) :
    addAll true (c :: (front ++ ['/'])) segments =
      c :: (front ++ ['/']) ++ joinPieces '/' segments := by
  induction segments generalizing front with
  | nil => exact absurd rfl hne
  | cons s segments ih =>
    have hs := hnames s List.mem_cons_self
    cases segments with
    | nil =>
      rw [addAll, add_name hs]
      simp [joinPieces, List.intercalate]
    | cons t segments =>
      have hrest := ih (List.cons_ne_nil t segments)
        (fun r hr => hnames r (List.mem_cons_of_mem s hr)) (front ++ '/' :: s)
      rw [addAll.eq_3 true _ s (t :: segments) (List.cons_ne_nil t segments).elim, add_name hs,
        joinPieces_cons]
      simpa using hrest

theorem endsPath_of_plain {c : Char} (h : Percent.Plain Percent.inPath c) :
    endsPath c = false := by
  refine Bool.eq_false_iff.mpr fun hc => ?_
  simp only [endsPath, Bool.or_eq_true, beq_iff_eq] at hc
  rcases hc with rfl | rfl
  · exact absurd h.2 (by decide)
  · exact absurd h.2 (by decide)

/-- Where the characters of a path end, so does what is read as a path. -/
theorem takeWhile_path (h : ∀ c ∈ path, endsPath c = false) {tail : List Char}
    (htail : tail.head?.all endsPath) :
    (path ++ tail).takeWhile (!endsPath ·) = path ∧
      (path ++ tail).dropWhile (!endsPath ·) = tail := by
  have hpath : ∀ c ∈ path, (!endsPath c) = true := fun c hc => by rw [h c hc]; rfl
  rw [List.takeWhile_append_of_pos hpath, List.dropWhile_append_of_pos hpath]
  cases tail with
  | nil => simp
  | cons c tail =>
    have hc : endsPath c = true := by simpa using htail
    simp [hc]

/-- A path whose characters stand for themselves is read segment by segment as it is. -/
theorem grow_eq (h : ∀ c ∈ path, Percent.Plain Percent.inPath c ∧ c ≠ '\\') {tail : List Char}
    (htail : tail.head?.all endsPath) (start : List Char) :
    grow .file start (path ++ tail) = addAll true start (pieces '/' path) := by
  obtain ⟨hbody, -⟩ := takeWhile_path (fun c hc => endsPath_of_plain (h c hc).1) htail
  have hpieces : piecesBy (SchemeKind.isSlash .file) path = pieces '/' path := by
    refine piecesBy_congr fun c hc => ?_
    simp [SchemeKind.isSlash, (h c hc).2]
  have hencode : (pieces '/' path).map (Percent.encode Percent.inPath) = pieces '/' path := by
    refine (List.map_congr_left fun s hs => ?_).trans (List.map_id _)
    exact Percent.encode_eq_self fun c hc => (h c (of_mem_piecesBy hs hc).1).1
  rw [grow, hbody, hpieces, hencode]
  rfl

/-- A settled path is read behind a root as itself. -/
theorem extend_settled (h : Settled path) {tail : List Char} (htail : tail.head?.all endsPath) :
    extend .file ['/'] (path ++ tail) = (path, tail) := by
  have hplain := h.normal.plain
  obtain ⟨-, hrest⟩ := takeWhile_path (fun c hc => endsPath_of_plain (hplain c hc).1) htail
  have hgrow := grow_eq hplain htail ['/']
  obtain ⟨body, rfl, hhead⟩ := h.rooted
  -- The empty segment before the first slash sets a second one behind the root.
  have hroot : addAll true ['/'] (pieces '/' ('/' :: body)) = '/' :: '/' :: body := by
    have hsplit : pieces '/' ('/' :: body) = [] :: pieces '/' body :=
      pieces_append_slash [] body
    have hne : pieces '/' body ≠ [] := piecesBy_ne_nil _ body
    have hnames := addAll_names hne (fun s hs => h.normal.names s (by simp [hsplit, hs])) '/' []
    rw [joinPieces_pieces] at hnames
    rw [hsplit, addAll.eq_3 true _ [] _ hne.elim]
    exact hnames
  have htrim : body.dropWhile (· == '/') = body := by
    cases body with
    | nil => rfl
    | cons c body =>
      have hc : c ≠ '/' := by simpa using hhead
      simp [hc]
  unfold extend
  rw [hgrow, hrest, hroot]
  refine Prod.ext ?_ rfl
  show '/' :: ('/' :: '/' :: body).dropWhile (· == '/') = '/' :: body
  simp [htrim]

end AddressPath
end Styling
