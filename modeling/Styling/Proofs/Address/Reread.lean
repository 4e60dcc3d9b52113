import Styling.Address.Reader
import Styling.Proofs.Address.Path

/-! # File addresses read back

Whatever a file address is read from, its parts are written with characters that stand for
themselves. So its text is read as the same address again, if it names no host.
-/
namespace Styling.Address
open AddressPath
variable {host cs : List Char} {a b : Address}

/-- The address of a file on a host, as reading leaves it. -/
structure IsFile (host : List Char) (a : Address) : Prop where
  scheme : a.scheme = fileScheme
  authority : a.authority = some ⟨[], host, none⟩
  path : Settled a.path
  query : ∀ q, a.query = some q → ∀ c ∈ q, Percent.Plain Percent.inSpecialQuery c
  fragment : ∀ f, a.fragment = some f → ∀ c ∈ f, Percent.Plain Percent.inFragment c

theorem kind_of_scheme (h : a.scheme = fileScheme) : a.kind = .file := by
  rw [kind, h]
  decide

theorem IsFile.kind (h : IsFile host a) : a.kind = .file := kind_of_scheme h.scheme

theorem plain_readFragment (cs : List Char) {f : List Char} (h : readFragment cs = some f) :
    ∀ c ∈ f, Percent.Plain Percent.inFragment c := by
  unfold readFragment at h
  split at h
  · obtain rfl := Option.some.inj h
    exact fun c hc => Percent.plain_of_mem_encode Percent.spares_inFragment hc
  · cases h

theorem isFile_withTail (hscheme : a.scheme = fileScheme)
    (hauthority : a.authority = some ⟨[], host, none⟩) (hpath : Settled a.path) (cs : List Char) :
    IsFile host (a.withTail cs) := by
  unfold withTail
  split
  · refine ⟨hscheme, hauthority, hpath, fun q hq c hc => ?_, fun f hf => plain_readFragment _ hf⟩
    obtain rfl := Option.some.inj hq
    rw [kind_of_scheme hscheme] at hc
    exact Percent.plain_of_mem_encode Percent.spares_inSpecialQuery hc
  · exact ⟨hscheme, hauthority, hpath, fun q hq => (Option.some_ne_none q hq.symm).elim,
      fun _ hf => plain_readFragment _ hf⟩

theorem IsFile.withQuery (h : IsFile host a) (cs : List Char) : IsFile host (a.withQuery cs) :=
  isFile_withTail h.scheme h.authority h.path cs

theorem IsFile.withFragment (h : IsFile host a) (cs : List Char) :
    IsFile host (a.withFragment cs) :=
  ⟨h.scheme, h.authority, h.path, h.query, fun _ hf => plain_readFragment _ hf⟩

theorem isFile_extendPath (hscheme : a.scheme = fileScheme)
    (hauthority : a.authority = some ⟨[], host, none⟩) (hnormal : Normal a.path)
    (hopen : Open a.path) (cs : List Char) : IsFile host (extendPath a cs) := by
  unfold extendPath
  rw [kind_of_scheme hscheme]
  refine isFile_withTail ?_ ?_ ?_ _
  · exact hscheme
  · exact hauthority
  · exact settled_extend hnormal hopen cs

theorem normal_root : Normal ['/'] := Normal.nil.root

theorem open_root : Open ['/'] := Open.slash []

theorem startPath_eq (hscheme : a.scheme = fileScheme) (cs : List Char) : ∃ rest,
    startPath a cs = extendPath { a with path := ['/'] } rest ∧
      (cs = rest ∧ (∀ c ∈ cs.head?, SchemeKind.isSlash .file c = false) ∨
        ∃ c, cs = c :: rest ∧ SchemeKind.isSlash .file c = true) := by
  unfold startPath
  rw [kind_of_scheme hscheme]
  split
  · exact ⟨[], rfl, .inl ⟨rfl, by simp⟩⟩
  · rename_i c rest
    split
    · exact ⟨rest, rfl, .inr ⟨c, rfl, ‹_›⟩⟩
    · rename_i hc
      refine ⟨c :: rest, ?_, .inl ⟨rfl, by simpa using hc⟩⟩
      simp [SchemeKind.isSpecial]

theorem isFile_startPath (hscheme : a.scheme = fileScheme)
    (hauthority : a.authority = some ⟨[], host, none⟩) (cs : List Char) :
    IsFile host (startPath a cs) := by
  obtain ⟨rest, heq, -⟩ := startPath_eq hscheme cs
  rw [heq]
  refine isFile_extendPath ?_ ?_ normal_root open_root rest
  · exact hscheme
  · exact hauthority

theorem ofFileOnHost_cases (host cs : List Char) :
    ofFileOnHost host cs = startPath ⟨fileScheme, some ⟨[], [], none⟩, [], none, none⟩ cs ∨
    ofFileOnHost host cs = startPath ⟨fileScheme, some ⟨[], host, none⟩, [], none, none⟩ cs := by
  unfold ofFileOnHost
  dsimp only
  generalize isWrittenDrive _ = drive
  cases drive
  · exact .inr rfl
  · exact .inl rfl

/-- The address of a file on a host that is not this one: what follows the two slashes is the
host and the path. -/
def Remote (cs : List Char) (a : Address) : Prop :=
  ∃ hostText rest host, cs = hostText ++ rest ∧ hostText ≠ [] ∧
    Host.ofSpecial? hostText = some host ∧ host ≠ "localhost".toList ∧
    a = startPath ⟨fileScheme, some ⟨[], host, none⟩, [], none, none⟩ rest

/-- What no cleaning drops stays in front of the rest. -/
theorem clean_append {front : List Char} (hne : front ≠ []) (h : ∀ c ∈ front, 0x20 < c.toNat)
    (cs : List Char) : clean (front ++ cs) =
      front ++ ((cs.reverse.dropWhile fun c => decide (c.toNat ≤ 0x20)).reverse.filter fun c =>
        !(c == '\t' || c == '\n' || c == '\r')) := by
  have hedge (l rest : List Char) (hl : l ≠ []) (hall : ∀ c ∈ l, 0x20 < c.toNat) :
      (l ++ rest).dropWhile (fun c => decide (c.toNat ≤ 0x20)) = l ++ rest := by
    obtain ⟨c, l, rfl⟩ := List.exists_cons_of_ne_nil hl
    have hc : ¬c.toNat ≤ 0x20 := Nat.not_le.mpr (hall c List.mem_cons_self)
    simp [hc]
  have hreverse := hedge front.reverse [] (by simpa using hne)
    fun c hc => h c (List.mem_reverse.mp hc)
  rw [List.append_nil] at hreverse
  have hend : (cs.reverse ++ front.reverse).dropWhile (fun c => decide (c.toNat ≤ 0x20)) =
      cs.reverse.dropWhile (fun c => decide (c.toNat ≤ 0x20)) ++ front.reverse := by
    rw [List.dropWhile_append, hreverse]
    split
    · rename_i hempty
      rw [List.isEmpty_iff.mp hempty, List.nil_append]
    · rfl
  have hkeep : ∀ c ∈ front, (!(c == '\t' || c == '\n' || c == '\r')) = true := by
    intro c hc
    have hc := h c hc
    simp only [Bool.not_eq_true', Bool.or_eq_false_iff, beq_eq_false_iff_ne]
    refine ⟨⟨?_, ?_⟩, ?_⟩ <;>
      · rintro rfl
        exact absurd hc (by decide)
  unfold clean
  dsimp only
  rw [hedge front cs hne h, List.reverse_append, hend, List.reverse_append, List.reverse_reverse,
    List.filter_append, List.filter_eq_self.mpr hkeep]

theorem clean_eq_self (h : ∀ c ∈ cs, 0x20 < c.toNat) : clean cs = cs := by
  cases cs with
  | nil => rfl
  | cons c cs =>
    have hclean := clean_append (List.cons_ne_nil c cs) h []
    simpa using hclean

theorem toNat_of_plain {escaped : Char → Bool} {c : Char}
    (hescaped : ∀ n < 128, n ≤ 0x20 → escaped (Char.ofNat n) = true)
    (h : Percent.Plain escaped c) : 0x20 < c.toNat := by
  refine Nat.lt_of_not_le fun hle => ?_
  have hc := hescaped c.toNat (toNat_lt_of_not_isNonAscii h.1) hle
  rw [Char.ofNat_toNat, h.2] at hc
  cases hc

def tail (a : Address) : List Char := tailChars '?' a.query ++ tailChars '#' a.fragment

theorem IsFile.toNat_path (h : IsFile host a) : ∀ c ∈ a.path, 0x20 < c.toNat :=
  fun c hc => toNat_of_plain (by decide) (h.path.normal.plain c hc).1

theorem IsFile.toNat_tail (h : IsFile host a) : ∀ c ∈ a.tail, 0x20 < c.toNat := by
  intro c hc
  rcases List.mem_append.mp hc with hc | hc
  · cases hquery : a.query with
    | none => simp [hquery, tailChars] at hc
    | some q =>
      rw [hquery] at hc
      rcases List.mem_cons.mp hc with rfl | hc
      · decide
      · exact toNat_of_plain (by decide) (h.query q hquery c hc)
  · cases hfragment : a.fragment with
    | none => simp [hfragment, tailChars] at hc
    | some f =>
      rw [hfragment] at hc
      rcases List.mem_cons.mp hc with rfl | hc
      · decide
      · exact toNat_of_plain (by decide) (h.fragment f hfragment c hc)

theorem IsFile.chars_eq (h : IsFile host a) :
    a.chars = ['f', 'i', 'l', 'e', ':', '/', '/'] ++ (host ++ (a.path ++ a.tail)) := by
  have hscheme : fileScheme = ['f', 'i', 'l', 'e'] := by decide
  rw [chars, authorityChars, h.authority, h.scheme, hscheme]
  simp [Authority.chars, tail]

/-- What follows `file://` is read as a host and a path. -/
theorem IsFile.read?_text (h : IsFile host a) (hhost : ∀ c ∈ host, 0x20 < c.toNat) :
    read? none a.text = readFileHost (host ++ (a.path ++ a.tail)) := by
  have hclean : clean a.chars = a.chars := by
    refine clean_eq_self fun c hc => ?_
    rw [h.chars_eq] at hc
    simp only [List.mem_append] at hc
    rcases hc with hc | hc | hc | hc
    · simp only [List.mem_cons, List.not_mem_nil, or_false] at hc
      rcases hc with rfl | rfl | rfl | rfl | rfl | rfl | rfl <;> decide
    · exact hhost c hc
    · exact h.toNat_path c hc
    · exact h.toNat_tail c hc
  unfold read?
  rw [text, String.toList_ofList, hclean, h.chars_eq]
  rfl

theorem readFragment_tailChars {f : Option (List Char)}
    (h : ∀ cs, f = some cs → ∀ c ∈ cs, Percent.Plain Percent.inFragment c) :
    readFragment (tailChars '#' f) = f := by
  cases f with
  | none => rfl
  | some cs => exact congrArg some (Percent.encode_eq_self (h cs rfl))

theorem takeWhile_query {q : List Char} (h : ∀ c ∈ q, Percent.Plain Percent.inSpecialQuery c)
    (f : Option (List Char)) :
    (q ++ tailChars '#' f).takeWhile (· != '#') = q ∧
      (q ++ tailChars '#' f).dropWhile (· != '#') = tailChars '#' f := by
  have hq : ∀ c ∈ q, (c != '#') = true := by
    refine fun c hc => bne_iff_ne.mpr ?_
    rintro rfl
    exact absurd (h _ hc).2 (by decide)
  rw [List.takeWhile_append_of_pos hq, List.dropWhile_append_of_pos hq]
  cases f <;> simp [tailChars]

theorem IsFile.withTail_tail (h : IsFile host b) (hkind : a.kind = .file) :
    a.withTail b.tail = { a with query := b.query, fragment := b.fragment } := by
  have hfragment := readFragment_tailChars h.fragment
  unfold tail
  cases hq : b.query with
  | none =>
    have hnone : tailChars '?' none ++ tailChars '#' b.fragment = tailChars '#' b.fragment := rfl
    rw [hnone]
    unfold withTail
    split
    · rename_i heq
      cases hf : b.fragment <;> rw [hf] at heq <;> cases heq
    · rw [hfragment]
  | some q =>
    have hplain := h.query q hq
    obtain ⟨htake, hdrop⟩ := takeWhile_query hplain b.fragment
    have hsome : tailChars '?' (some q) ++ tailChars '#' b.fragment =
        '?' :: (q ++ tailChars '#' b.fragment) := rfl
    rw [hsome, withTail, htake, hdrop, hfragment, hkind]
    exact congrArg (fun q => { a with query := some q, fragment := b.fragment })
      (Percent.encode_eq_self hplain)

theorem head?_tail (a : Address) : a.tail.head?.all endsPath := by
  unfold tail
  cases a.query <;> cases a.fragment <;> rfl

/-- A path that is settled is read again behind a root, with what follows it. -/
theorem IsFile.extendPath_eq (h : IsFile host a) (authority : Option Authority) :
    extendPath ⟨fileScheme, authority, ['/'], none, none⟩ (a.path ++ a.tail) =
      ⟨fileScheme, authority, a.path, a.query, a.fragment⟩ := by
  have hextend := extend_settled h.path (head?_tail a)
  unfold extendPath
  dsimp only
  rw [kind_of_scheme rfl, hextend]
  exact h.withTail_tail (kind_of_scheme rfl)

end Styling.Address
