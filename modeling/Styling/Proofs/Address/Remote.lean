import Mathlib.Data.List.Basic
import Styling.Address.Library
import Styling.Proofs.Address.Host
import Styling.Proofs.Address.Reread

/-! # Files on other hosts

A path takes no more bytes than the text that it was read from, and one byte for its root. The
text of an address on another host may be read as that of a file on this one, because a drive
letter has no host; but then the path of this file is shorter than what the host and the path
were read from.
-/
namespace Styling

namespace AddressPath
variable {path s front : List Char} {segments : List (List Char)}

def size (cs : List Char) : Nat := (Percent.decode cs).length

theorem size_append_slash (a cs : List Char) : size (a ++ '/' :: cs) = size a + 1 + size cs := by
  unfold size
  rw [Percent.decode_append_slash, List.length_append, List.length_cons]
  omega

theorem size_nil : size [] = 0 := by rw [size, Percent.decode_nil, List.length_nil]

theorem size_concat_slash (front : List Char) : size (front ++ ['/']) = size front + 1 := by
  rw [size_append_slash, size_nil]

theorem size_slash (cs : List Char) : size ('/' :: cs) = 1 + size cs := by
  have h := size_append_slash [] cs
  rwa [size_nil, Nat.zero_add, List.nil_append] at h

def total : List (List Char) → Nat
  | [] => 0
  | s :: segments => size s + 1 + total segments

theorem total_joinPieces (hne : segments ≠ []) :
    total segments = size (joinPieces '/' segments) + 1 := by
  induction segments with
  | nil => exact absurd rfl hne
  | cons s segments ih =>
    cases segments with
    | nil => simp [total, joinPieces, List.intercalate]
    | cons t segments =>
      have hrest := ih (List.cons_ne_nil t segments)
      have hsum : total (s :: t :: segments) = size s + 1 + total (t :: segments) := rfl
      rw [joinPieces_cons, size_append_slash, hsum, hrest]
      omega

theorem total_pieces (path : List Char) : total (pieces '/' path) = size path + 1 := by
  have hne : pieces '/' path ≠ [] := piecesBy_ne_nil _ path
  rw [total_joinPieces hne, joinPieces_pieces]

theorem total_encode_le (p : Char → Bool) (cs : List Char) :
    total ((piecesBy p cs).map (Percent.encode Percent.inPath)) ≤ (Utf8.encode cs).length + 1 := by
  induction cs with
  | nil =>
    have hnil : size (Percent.encode Percent.inPath []) = 0 := size_nil
    simp [piecesBy, total, hnil]
  | cons c cs ih =>
    have hpos := c.utf8Size_pos
    rw [Utf8.length_encode_cons, piecesBy]
    split
    · have hnil : size (Percent.encode Percent.inPath []) = 0 := size_nil
      rw [List.map_cons, total, hnil]
      omega
    · obtain ⟨first, rest, hpieces⟩ := List.exists_cons_of_ne_nil (piecesBy_ne_nil p cs)
      have hstep := Percent.length_decode_encode_cons_le Percent.inPath c first
      rw [String.length_utf8EncodeChar] at hstep
      rw [hpieces] at ih ⊢
      simp only [total, List.map_cons, size] at ih hstep ⊢
      omega

/-! ### Paths that are built -/

theorem pop_le (file : Bool) (h : path.head? = some '/') :
    (pop file path).head? = some '/' ∧ size (pop file path) ≤ size path := by
  obtain heq | ⟨-, hslash⟩ | ⟨front, last, rfl, heq⟩ := pop_cases file path
  · rw [heq]
    exact ⟨h, Nat.le_refl _⟩
  · exact absurd (List.mem_of_mem_head? h) hslash
  · rw [heq, size_concat_slash, size_append_slash]
    refine ⟨?_, Nat.le_add_right _ _⟩
    cases front with
    | nil => rfl
    | cons c front => exact h

theorem dropSlash_le (h : path.head? = some '/') :
    (dropSlash path).head? = some '/' ∧ size (dropSlash path) ≤ size path := by
  obtain heq | ⟨heq, hne⟩ := dropSlash_cases path
  · rw [heq]
    exact ⟨h, Nat.le_refl _⟩
  · rw [heq, List.head?_append_of_ne_nil _ hne] at h
    refine ⟨h, ?_⟩
    conv => rhs; rw [heq, size_concat_slash]
    omega

theorem addSlash_le (h : path.head? = some '/') : (addSlash path).head? = some '/' ∧
    size (addSlash path) ≤ size path + 1 ∧ ∃ front, addSlash path = front ++ ['/'] := by
  obtain ⟨heq, hfront⟩ | heq := addSlash_cases path <;> rw [heq]
  · exact ⟨h, Nat.le_succ _, hfront⟩
  · refine ⟨?_, (size_concat_slash path).le, path, rfl⟩
    cases path with
    | nil => cases h
    | cons c path => exact h

theorem Respells.size_eq {name : List Char} (h : Respells s name) : size name = size s := by
  obtain rfl | ⟨a, m, rfl, hdrive, rfl⟩ := h
  · rfl
  · obtain ⟨ha, hm⟩ := Bool.and_eq_true_iff.mp hdrive
    have hletter : a ≠ '%' := by
      rintro rfl
      exact absurd ha (by decide)
    have hmark : size [m] = 1 := by
      simp only [isDriveMark, Bool.or_eq_true, beq_iff_eq] at hm
      rcases hm with rfl | rfl <;> simp [size, Percent.decode] <;> rfl
    have hcolon : size [':'] = 1 := by
      simp [size, Percent.decode]
      rfl
    unfold size at hmark hcolon ⊢
    rw [Percent.decode_cons_of_ne hletter, Percent.decode_cons_of_ne hletter, List.length_append,
      List.length_append, hmark, hcolon]

theorem Respells.size_append {name : List Char} (h : Respells s name)
    (hfront : path = front ++ ['/']) : size (path ++ name) = size path + size s := by
  subst hfront
  rw [List.append_assoc, List.singleton_append, size_append_slash, size_concat_slash, h.size_eq]

theorem isWrittenDrive_drop (hfront : path = front ++ ['/']) :
    isWrittenDrive (path.drop 1) = false := by
  subst hfront
  cases front with
  | nil => rfl
  | cons c front => exact isWrittenDrive_concat_slash front

/-- Behind a slash, a segment adds its bytes and that of its slash. -/
theorem add_le (file : Bool) (hroot : path.head? = some '/') (hfront : path = front ++ ['/'])
    (s : List Char) (slash : Bool) : (add file path s slash).head? = some '/' ∧
      size (add file path s slash) ≤ size path + size s + (if slash then 1 else 0) ∧
      (slash = true → ∃ front, add file path s slash = front ++ ['/']) := by
  obtain ⟨start, hstart, hadd⟩ := add_cases file path s slash
  obtain rfl : start = path := by
    refine hstart.resolve_right fun hdrive => ?_
    rw [isWrittenDrive_drop hfront] at hdrive
    exact Bool.false_ne_true hdrive.2
  obtain ⟨-, heq⟩ | heq | ⟨-, name, hname, heq⟩ := hadd <;> rw [heq]
  · obtain ⟨hdrop, hdropLe⟩ := dropSlash_le hroot
    obtain ⟨hpop, hpopLe⟩ := pop_le file hdrop
    cases slash with
    | false => exact ⟨hpop, by simp only [Bool.false_eq_true, if_false]; omega, by simp⟩
    | true =>
      obtain ⟨hadd, haddLe, hends⟩ := addSlash_le hpop
      exact ⟨hadd, by simp only [if_true]; omega, fun _ => hends⟩
  · have hsame : addSlash start = start := if_pos (endsInSlash_iff.mpr ⟨front, hfront⟩)
    rw [hsame]
    exact ⟨hroot, by omega, fun _ => ⟨front, hfront⟩⟩
  · have hsize := hname.size_append hfront
    have hhead : (start ++ name).head? = some '/' := by
      cases start with
      | nil => cases hroot
      | cons c start => exact hroot
    cases slash with
    | false =>
      rw [if_neg Bool.false_ne_true, List.append_nil]
      exact ⟨hhead, hsize.le, by simp⟩
    | true =>
      have hne : start ++ name ≠ [] := by
        rintro h
        rw [h] at hhead
        cases hhead
      rw [if_pos rfl, size_concat_slash, hsize, List.head?_append_of_ne_nil _ hne]
      exact ⟨hhead, Nat.le_refl _, fun _ => ⟨_, rfl⟩⟩

theorem addAll_le (file : Bool) (hroot : path.head? = some '/') (hfront : path = front ++ ['/'])
    (hne : segments ≠ []) : (addAll file path segments).head? = some '/' ∧
      size (addAll file path segments) + 1 ≤ size path + total segments := by
  induction segments generalizing path front with
  | nil => exact absurd rfl hne
  | cons s segments ih =>
    cases segments with
    | nil =>
      obtain ⟨hhead, hle, -⟩ := add_le file hroot hfront s false
      refine ⟨hhead, ?_⟩
      have htotal : total [s] = size s + 1 := rfl
      rw [addAll, htotal]
      simp only [Bool.false_eq_true, if_false] at hle
      omega
    | cons t segments =>
      obtain ⟨hhead, hle, hends⟩ := add_le file hroot hfront s true
      obtain ⟨front', hfront'⟩ := hends rfl
      obtain ⟨hroot', hle'⟩ := ih hhead hfront' (List.cons_ne_nil t segments)
      have htotal : total (s :: t :: segments) = size s + 1 + total (t :: segments) := rfl
      rw [addAll.eq_3 file path s (t :: segments) (List.cons_ne_nil t segments).elim, htotal]
      simp only [if_true] at hle
      exact ⟨hroot', by omega⟩

theorem trimRoot_le (h : path.head? = some '/') : size (trimRoot path) ≤ size path := by
  have hdrop (cs : List Char) : size (cs.dropWhile (· == '/')) ≤ size cs := by
    induction cs with
    | nil => exact Nat.le_refl _
    | cons c cs ih =>
      by_cases hc : c = '/'
      · subst hc
        rw [size_slash]
        exact ih.trans (Nat.le_add_left _ _)
      · simp [hc]
  cases path with
  | nil => cases h
  | cons c path =>
    obtain rfl : c = '/' := Option.some.inj h
    have htrim : trimRoot ('/' :: path) = '/' :: path.dropWhile (· == '/') := by
      simp [trimRoot]
    rw [htrim, size_slash, size_slash]
    exact Nat.add_le_add_left (hdrop path) 1

/-- Behind a root, the segments of a path take their bytes, each but one with a slash. -/
theorem extend_le (cs : List Char) (hne : segments ≠ [])
    (hgrow : grow .file ['/'] cs = addAll true ['/'] segments) :
    size (extend .file ['/'] cs).1 ≤ total segments := by
  obtain ⟨hhead, hle⟩ := @addAll_le ['/'] [] segments true rfl rfl hne
  have hroot : size ['/'] = 1 := by rw [size_slash, size_nil]
  have htrim := trimRoot_le (hgrow ▸ hhead)
  have hsize : size (extend .file ['/'] cs).1 = size (trimRoot (grow .file ['/'] cs)) := rfl
  rw [hsize]
  rw [hgrow] at htrim ⊢
  omega

end AddressPath

namespace Address
open AddressPath
variable {host cs : List Char} {a b : Address}

theorem path_withTail (a : Address) (cs : List Char) : (a.withTail cs).path = a.path := by
  unfold withTail
  split <;> rfl

theorem path_startPath (hscheme : a.scheme = fileScheme) (cs : List Char) : ∃ rest,
    (startPath a cs).path = (extend .file ['/'] rest).1 ∧
      (cs = rest ∧ (∀ c ∈ cs.head?, SchemeKind.isSlash .file c = false) ∨
        ∃ c, cs = c :: rest ∧ SchemeKind.isSlash .file c = true) := by
  obtain ⟨rest, heq, hrest⟩ := startPath_eq hscheme cs
  refine ⟨rest, ?_, hrest⟩
  rw [heq, extendPath, path_withTail, kind_of_scheme]
  exact hscheme

/-- The path of a file takes no more bytes than what it is read from, and one for its root. -/
theorem startPath_le (hscheme : a.scheme = fileScheme) (cs : List Char) :
    size (startPath a cs).path ≤ (Utf8.encode cs).length + 1 := by
  obtain ⟨rest, heq, hrest⟩ := path_startPath hscheme cs
  have hne : (piecesBy (SchemeKind.isSlash .file) (rest.takeWhile (!endsPath ·))).map
      (Percent.encode Percent.inPath) ≠ [] := by
    simpa using piecesBy_ne_nil _ _
  have hle := (extend_le rest hne rfl).trans (total_encode_le _ _)
  have hall : rest.Sublist cs := by
    obtain ⟨rfl, -⟩ | ⟨c, rfl, -⟩ := hrest
    · exact List.Sublist.refl cs
    · exact List.sublist_cons_self c rest
  rw [heq]
  exact hle.trans (Nat.succ_le_succ
    (Utf8.length_encode_le ((List.takeWhile_sublist _).trans hall)))

/-- A path that is read again does not get longer. -/
theorem IsFile.startPath_le (h : IsFile host a) (hscheme : b.scheme = fileScheme) :
    size (startPath b (a.path ++ a.tail)).path ≤ size a.path := by
  obtain ⟨body, hpath, -⟩ := h.path.rooted
  have hplain := h.path.normal.plain
  obtain ⟨rest, heq, hrest⟩ := path_startPath hscheme (a.path ++ a.tail)
  rw [hpath] at hrest hplain
  have hslash : SchemeKind.isSlash .file '/' = true := rfl
  obtain ⟨-, hnot⟩ | ⟨c, hcs, -⟩ := hrest
  · rw [hnot '/' rfl] at hslash
    cases hslash
  · obtain ⟨-, rfl⟩ := List.cons.inj hcs
    have hgrow := grow_eq (fun c hc => hplain c (List.mem_cons_of_mem _ hc)) (head?_tail a) ['/']
    have hle := extend_le _ (piecesBy_ne_nil _ body) hgrow
    have htotal := total_pieces body
    rw [heq, hpath, size_slash]
    rw [pieces] at htotal
    exact hle.trans (by omega)

/-- The bytes of the path that an address names, where a drive letter gets a slash. -/
theorem toPath?_cases {bytes : List UInt8} (h : toPath? a = some bytes) :
    bytes = Percent.decode a.path ∨ bytes = Percent.decode a.path ++ ['/'.toUInt8] := by
  unfold toPath? at h
  split at h
  · split at h
    · obtain rfl := Option.some.inj h
      exact (ite_eq_or_eq _ _ _).symm
    · cases h
  · cases h

theorem length_toPath?_le {bytes : List UInt8} (h : toPath? a = some bytes) :
    bytes.length ≤ size a.path + 1 := by
  rcases toPath?_cases h with rfl | rfl
  · exact Nat.le_succ _
  · rw [List.length_append]
    exact Nat.le_refl _

theorem IsFile.takeWhile_host (h : IsFile host a) (hchars : ∀ c ∈ host, Host.IsHostChar c) :
    (host ++ (a.path ++ a.tail)).takeWhile (fun c => !(c == '/' || c == '\\' || endsPath c)) = host ∧
    (host ++ (a.path ++ a.tail)).dropWhile (fun c => !(c == '/' || c == '\\' || endsPath c)) =
      a.path ++ a.tail := by
  obtain ⟨body, hpath, -⟩ := h.path.rooted
  have hhost : ∀ c ∈ host, (!(c == '/' || c == '\\' || endsPath c)) = true := by
    intro c hc
    obtain ⟨-, hslash, hback, hquery, hmark⟩ := hchars c hc
    simp [endsPath, hslash, hback, hquery, hmark]
  rw [List.takeWhile_append_of_pos hhost, List.dropWhile_append_of_pos hhost, hpath]
  simp

/-- Reading the text of an address on another host gives no longer path. -/
theorem IsFile.size_reread_le (h : IsFile host a) (hne : host ≠ [])
    (hchars : ∀ c ∈ host, Host.IsHostChar c) (hdrive : isDrive host = false)
    (hread : read? none a.text = some b) : size b.path ≤ size a.path := by
  rw [h.read?_text fun c hc => (hchars c hc).1] at hread
  obtain ⟨htake, hdrop⟩ := h.takeWhile_host hchars
  unfold readFileHost at hread
  dsimp only at hread
  rw [htake, hdrop, hdrive, if_neg Bool.false_ne_true, if_neg (by simpa using hne)] at hread
  obtain ⟨host', -, rfl⟩ := Option.map_eq_some_iff.mp hread
  split
  · rw [h.extendPath_eq]
  · rcases ofFileOnHost_cases host' (a.path ++ a.tail) with heq | heq <;> rw [heq]
    · exact h.startPath_le rfl
    · exact h.startPath_le rfl

/-- Whatever file the text of an address on another host may name here, the reference that it was
read from is longer. -/
theorem Remote.length_lt (h : Remote cs a) (hremote : ¬IsFile [] a)
    (hread : read? none a.text = some b) {bytes : List UInt8}
    (hbytes : toPath? b = some bytes) : bytes.length < (Utf8.encode cs).length + 2 := by
  obtain ⟨hostText, rest, host, rfl, htext, hhost, -, rfl⟩ := h
  obtain ⟨hchars, hdrive⟩ := Host.ofSpecial?_spec hhost
  have hfile : IsFile host (startPath ⟨fileScheme, some ⟨[], host, none⟩, [], none, none⟩ rest) :=
    isFile_startPath rfl rfl rest
  have hne : host ≠ [] := by
    rintro rfl
    exact hremote hfile
  have hreread := hfile.size_reread_le hne hchars hdrive hread
  have hpath := startPath_le (a := ⟨fileScheme, some ⟨[], host, none⟩, [], none, none⟩) rfl rest
  have hlength := length_toPath?_le hbytes
  have hpos : 0 < (Utf8.encode hostText).length := by
    obtain ⟨c, cs, rfl⟩ := List.exists_cons_of_ne_nil htext
    rw [Utf8.length_encode_cons]
    exact Nat.lt_of_lt_of_le c.utf8Size_pos (Nat.le_add_right _ _)
  rw [Utf8.encode_append, List.length_append]
  omega

end Address
end Styling
