import Mathlib.Data.List.Basic
import Mathlib.Data.List.Forall2
import Mathlib.Data.List.TakeWhile

/-!
# The line scanner of build-depends

A line of the dependency file names modules by their paths, and the scanner of
`main` cuts the file names out of it. It is an automaton written over a buffer: a
cursor `pos`, a pointer `key` to where the current name may start – null while it
is waiting for a letter – and the pointers pushed so far. A `/` restarts the name
behind it, a `.` ends it, and if the `.` begins `.ko` the name is pushed and a NUL
is written over the character behind it, in the buffer that is still being
scanned.

`KernelConfiguration.scanLoop` is this loop, on a buffer of which the accesses are
checked: one outside the buffer makes the whole scan answer `none`. What it
computes is said without a buffer by `KernelConfiguration.scanText`, a recursion
on the text of the line, and `KernelConfiguration.scanBuffer_names` is the theorem
that connects the two. It holds whatever lies behind the terminator of the line.
-/

namespace KernelConfiguration

/-- The byte that ends a C string. -/
def nul : Char := '\x00'

/-- The C string that starts at index `i` of a buffer. -/
def cstr (buf : List Char) (i : ℕ) : List Char := (buf.drop i).takeWhile (· ≠ nul)

/-! ### The loop -/

/-- The state of the scanner. -/
structure Scanner where
  /-- The buffer. -/
  cline : List Char
  /-- The cursor. -/
  pos : ℕ
  /-- Where the current name starts, or null. -/
  key : Option ℕ
  /-- The pointers pushed. -/
  keys : List ℕ
  deriving DecidableEq, Repr

/-- The body of the loop and the increment of the cursor, on the character `c`
found at the cursor. -/
def Scanner.step (s : Scanner) (c : Char) : Option Scanner :=
  if s.key = none ∧ ¬c.isAlpha then some { s with pos := s.pos + 1 }
  else
    let key := s.key.getD s.pos
    if c = '/' then some { s with key := some (s.pos + 1), pos := s.pos + 1 }
    else if c = '.' then do
      let skip : Scanner := { s with key := none, pos := s.pos + 1 }
      if (← s.cline[s.pos + 1]?) = 'k' then
        if (← s.cline[s.pos + 2]?) = 'o' then
          let push : Scanner := { s with key := none, keys := s.keys ++ [key] }
          -- the separator is overwritten and stepped over, the terminator is not
          if (← s.cline[s.pos + 3]?) ≠ nul then
            return { push with cline := s.cline.set (s.pos + 3) nul, pos := s.pos + 4 }
          else return { push with pos := s.pos + 3 }
        else return skip
      else return skip
    else some { s with key := some key, pos := s.pos + 1 }

/-- **The scanning loop.** The first argument bounds the number of rounds. -/
def scanLoop : ℕ → Scanner → Option Scanner
  | 0, _ => none
  | fuel + 1, s => do
    let c ← s.cline[s.pos]?
    if c = nul then return s else scanLoop fuel (← s.step c)

/-- Scanning a buffer from its start. -/
def scanBuffer (cline : List Char) : Option Scanner :=
  scanLoop (cline.length + 1) ⟨cline, 0, none, []⟩

/-! ### The names of a line -/

/-- **The names in a text**: the first argument is the number of characters still
to be stepped over, the second the part of the current name already read. -/
def scanText : ℕ → Option (List Char) → List Char → List (List Char)
  | _, _, [] => []
  | skip + 1, key, _ :: cs => scanText skip key cs
  | 0, none, c :: cs => if c.isAlpha then scanText 0 (some [c]) cs else scanText 0 none cs
  | 0, some name, c :: cs =>
    if c = '/' then scanText 0 (some []) cs
    else if c = '.' then
      if cs.take 2 = ['k', 'o'] then (name ++ ['.', 'k', 'o']) :: scanText 3 none cs
      else scanText 0 none cs
    else scanText 0 (some (name ++ [c])) cs

/-- **The names in a line**, which the scanner reads up to the first NUL. -/
def lineNames (line : List Char) : List (List Char) := scanText 0 none (line.takeWhile (· ≠ nul))

example : lineNames "kernel/a/b.ko: kernel/4.0.0-311c/c.ko".toList =
    [['b', '.', 'k', 'o'], ['c', '.', 'k', 'o']] := by decide

/-- Characters stepped over are dropped. -/
theorem scanText_skip {key : Option (List Char)} (n : ℕ) :
    ∀ text, scanText n key text = scanText 0 key (text.drop n) := by
  induction n with
  | zero => exact fun _ => rfl
  | succ n ih =>
    intro text
    cases text with
    | nil => rfl
    | cons c cs => rw [scanText, ih, List.drop_succ_cons]

/-! ### What is behind the cursor -/

variable {pre tail text stale : List Char} {keys : List ℕ} {fuel i : ℕ} {c : Char}

theorem getElem?_behind (pre tail : List Char) (k : ℕ) :
    (pre ++ tail)[pre.length + k]? = tail[k]? := by
  rw [List.getElem?_append_right (Nat.le_add_right _ _), Nat.add_sub_cancel_left]

theorem getElem?_cursor (pre tail : List Char) : (pre ++ tail)[pre.length]? = tail[0]? :=
  getElem?_behind pre tail 0

/-- The current name, as a pointer into the text read so far and as what it points
to. -/
def KeyAt (pre : List Char) : Option ℕ → Option (List Char) → Prop
  | none, none => True
  | some i, some name => i ≤ pre.length ∧ pre.drop i = name ∧ nul ∉ name
  | _, _ => False

/-- The pointer points to a name that is terminated in the text read so far. -/
def Sealed (pre : List Char) (i : ℕ) (name : List Char) : Prop :=
  nul ∉ name ∧ ∃ rest, pre.drop i = name ++ nul :: rest

/-- A string ends at the first NUL. -/
theorem takeWhile_nul {name : List Char} (h : nul ∉ name) (rest : List Char) :
    (name ++ nul :: rest).takeWhile (· ≠ nul) = name := by
  rw [List.takeWhile_append_of_pos fun c hc => ?_]
  · simp
  · simpa using fun heq : c = nul => h (heq ▸ hc)

theorem Sealed.append {name : List Char} (h : Sealed pre i name) (tail : List Char) :
    Sealed (pre ++ tail) i name := by
  obtain ⟨hn, rest, hrest⟩ := h
  have hlt : i ≤ pre.length := by
    by_contra hcon
    rw [List.drop_eq_nil_of_le (by omega)] at hrest
    simp at hrest
  refine ⟨hn, rest ++ tail, ?_⟩
  rw [List.drop_append_of_le_length hlt, hrest, List.append_assoc]
  rfl

theorem Sealed.cstr {name : List Char} (h : Sealed pre i name) : cstr pre i = name := by
  obtain ⟨hn, rest, hrest⟩ := h
  rw [KernelConfiguration.cstr, hrest, takeWhile_nul hn]

/-- The current name with what is read behind it. -/
theorem KeyAt.append {name : List Char} (h : KeyAt pre (some i) (some name)) (tail : List Char) :
    (pre ++ tail).drop i = name ++ tail := by
  rw [List.drop_append_of_le_length h.1, h.2.1]

/-- The names of sealed pointers, read from a longer buffer. -/
theorem map_cstr_of_sealed {names : List (List Char)} (h : List.Forall₂ (Sealed pre) keys names)
    (tail : List Char) : keys.map (cstr (pre ++ tail)) = names := by
  induction h with
  | nil => rfl
  | cons hi _ ih => rw [List.map_cons, ih, (hi.append tail).cstr]

/-! ### One round -/

theorem scanLoop_nul {s : Scanner} (h : s.cline[s.pos]? = some nul) :
    scanLoop (fuel + 1) s = some s := by
  simp [scanLoop, h]

theorem scanLoop_cons {s s' : Scanner} (h : s.cline[s.pos]? = some c) (hc : c ≠ nul)
    (hs : s.step c = some s') : scanLoop (fuel + 1) s = scanLoop fuel s' := by
  simp [scanLoop, h, hc, hs]

/-- A character that is no separator is passed, or begins a name. -/
theorem step_of_ne {key : Option ℕ} (hc : c ≠ '/') (hc' : c ≠ '.')
    (hkey : key = none → c.isAlpha) :
    Scanner.step ⟨tail, i, key, keys⟩ c = some ⟨tail, i + 1, some (key.getD i), keys⟩ := by
  have hnot : ¬(key = none ∧ ¬c.isAlpha) := fun h => h.2 (hkey h.1)
  simp only [Scanner.step, if_neg hnot, if_neg hc, if_neg hc']

/-- A `.` that does not begin `.ko` ends the name. -/
theorem step_dot_of_ne {j : ℕ} (hko : text.take 2 ≠ ['k', 'o']) :
    Scanner.step ⟨pre ++ '.' :: (text ++ nul :: stale), pre.length, some j, keys⟩ '.' =
      some ⟨pre ++ '.' :: (text ++ nul :: stale), pre.length + 1, none, keys⟩ := by
  have h₁ := getElem?_behind pre ('.' :: (text ++ nul :: stale)) 1
  have h₂ := getElem?_behind pre ('.' :: (text ++ nul :: stale)) 2
  -- the two characters behind the dot are the terminator, or differ from those of `ko`
  cases text with
  | nil =>
    have hk : nul ≠ 'k' := by decide
    simp_all [Scanner.step]
  | cons a text =>
    by_cases ha : a = 'k'
    · cases text with
      | nil =>
        have ho : nul ≠ 'o' := by decide
        simp_all [Scanner.step]
      | cons b text =>
        have hb : b ≠ 'o' := by
          rintro rfl
          exact hko (by rw [ha]; rfl)
        simp_all [Scanner.step]
    · simp_all [Scanner.step]

/-- A `.` that begins `.ko` pushes the name and writes a NUL over what follows. -/
theorem step_dot_ko {j : ℕ} {d : Char} (hd : d ≠ nul) :
    Scanner.step ⟨pre ++ '.' :: 'k' :: 'o' :: d :: tail, pre.length, some j, keys⟩ '.' =
      some ⟨pre ++ '.' :: 'k' :: 'o' :: nul :: tail, pre.length + 4, none, keys ++ [j]⟩ := by
  have h₁ := getElem?_behind pre ('.' :: 'k' :: 'o' :: d :: tail) 1
  have h₂ := getElem?_behind pre ('.' :: 'k' :: 'o' :: d :: tail) 2
  have h₃ := getElem?_behind pre ('.' :: 'k' :: 'o' :: d :: tail) 3
  have hset : (pre ++ '.' :: 'k' :: 'o' :: d :: tail).set (pre.length + 3) nul =
      pre ++ '.' :: 'k' :: 'o' :: nul :: tail := by
    rw [List.set_append_right _ _ (Nat.le_add_right _ _), Nat.add_sub_cancel_left]
    rfl
  simp_all [Scanner.step]

/-- A `.ko` at the end of the line pushes the name and stops before the
terminator. -/
theorem step_dot_ko_nul {j : ℕ} :
    Scanner.step ⟨pre ++ '.' :: 'k' :: 'o' :: nul :: tail, pre.length, some j, keys⟩ '.' =
      some ⟨pre ++ '.' :: 'k' :: 'o' :: nul :: tail, pre.length + 3, none, keys ++ [j]⟩ := by
  have h₁ := getElem?_behind pre ('.' :: 'k' :: 'o' :: nul :: tail) 1
  have h₂ := getElem?_behind pre ('.' :: 'k' :: 'o' :: nul :: tail) 2
  have h₃ := getElem?_behind pre ('.' :: 'k' :: 'o' :: nul :: tail) 3
  simp_all [Scanner.step]

/-! ### Whole lines -/

/-- The current name, one ordinary character further. -/
theorem KeyAt.snoc {name : List Char} (h : KeyAt pre (some i) (some name)) (hc : c ≠ nul) :
    KeyAt (pre ++ [c]) (some i) (some (name ++ [c])) := by
  refine ⟨?_, h.append [c], ?_⟩
  · rw [List.length_append]
    exact Nat.le_add_right_of_le h.1
  · rw [List.mem_append, List.mem_singleton, not_or]
    exact ⟨h.2.2, fun heq => hc heq.symm⟩

/-- A name that has just begun. -/
theorem keyAt_singleton (hc : c ≠ nul) : KeyAt (pre ++ [c]) (some pre.length) (some [c]) := by
  refine ⟨?_, List.drop_left, ?_⟩
  · rw [List.length_append]
    exact Nat.le_add_right _ _
  · rw [List.mem_singleton]
    exact fun heq => hc heq.symm

/-- A name that begins with the next character. -/
theorem keyAt_nil (pre : List Char) : KeyAt pre (some pre.length) (some []) :=
  ⟨Nat.le_refl _, List.drop_length, List.not_mem_nil⟩

/-- A pushed name is sealed by the NUL behind it. -/
theorem KeyAt.sealed {name : List Char} (h : KeyAt pre (some i) (some name)) :
    Sealed (pre ++ ['.', 'k', 'o', nul]) i (name ++ ['.', 'k', 'o']) := by
  refine ⟨?_, [], ?_⟩
  · rw [List.mem_append, not_or]
    exact ⟨h.2.2, by decide⟩
  · rw [h.append, List.append_assoc]
    rfl

theorem forall₂_snoc {R : ℕ → List Char → Prop} {names : List (List Char)} {name : List Char}
    (h : List.Forall₂ R keys names) (hi : R i name) :
    List.Forall₂ R (keys ++ [i]) (names ++ [name]) :=
  List.rel_append h (.cons hi .nil)

/-- A letter is no separator. -/
theorem ne_of_isAlpha (h : c.isAlpha) : c ≠ '/' ∧ c ≠ '.' := by
  constructor <;> rintro rfl <;> revert h <;> decide

theorem eq_of_take_two (h : text.take 2 = ['k', 'o']) : ∃ rest, text = 'k' :: 'o' :: rest :=
  ⟨text.drop 2, by rw [← List.take_append_drop 2 text, h, List.drop_append_of_le_length] <;> simp⟩

/-- The loop, started with `text` behind the cursor, ends and finds the names of
the text, with the current name begun by `name` and after the names already
pushed. -/
def Finds (stale : List Char) (fuel : ℕ) (pre text : List Char) (key : Option ℕ)
    (name : Option (List Char)) (keys : List ℕ) (names : List (List Char)) : Prop :=
  ∃ s, scanLoop fuel ⟨pre ++ (text ++ nul :: stale), pre.length, key, keys⟩ = some s ∧
    s.keys.map (cstr s.cline) = names ++ scanText 0 name text

variable {key key' : Option ℕ} {name name' : Option (List Char)} {names : List (List Char)}

theorem Finds.nil (hkeys : List.Forall₂ (Sealed pre) keys names) :
    Finds stale (fuel + 1) pre [] key name keys names := by
  refine ⟨_, scanLoop_nul (by rw [getElem?_cursor]; rfl), ?_⟩
  rw [scanText, List.append_nil]
  exact map_cstr_of_sealed hkeys _

theorem cursor_cons : (pre ++ c :: tail)[pre.length]? = some c := by
  rw [getElem?_cursor]
  rfl

/-- A round that passes one character. -/
theorem Finds.cons (hc : c ≠ nul)
    (hstep : Scanner.step ⟨pre ++ (c :: text ++ nul :: stale), pre.length, key, keys⟩ c =
      some ⟨pre ++ (c :: text ++ nul :: stale), pre.length + 1, key', keys⟩)
    (htext : scanText 0 name (c :: text) = scanText 0 name' text)
    (h : Finds stale fuel (pre ++ [c]) text key' name' keys names) :
    Finds stale (fuel + 1) pre (c :: text) key name keys names := by
  obtain ⟨s, hs, hnames⟩ := h
  refine ⟨s, ?_, by rw [hnames, htext]⟩
  rw [List.length_append, List.append_assoc] at hs
  exact (scanLoop_cons cursor_cons hc hstep).trans hs

/-- What a `.ko` adds to the names. -/
theorem scanText_ko {first : List Char} :
    scanText 0 (some first) ('.' :: 'k' :: 'o' :: text) =
      (first ++ ['.', 'k', 'o']) :: scanText 0 none (text.drop 1) := by
  rw [scanText, if_neg (by decide), if_pos rfl, if_pos (by rfl), scanText_skip]
  rfl

/-- The rounds that pass a `.ko` at the end of the line. -/
theorem Finds.ko_nul {first : List Char} (hkey : KeyAt pre (some i) (some first))
    (hkeys : List.Forall₂ (Sealed pre) keys names) :
    Finds stale (fuel + 2) pre ['.', 'k', 'o'] (some i) (some first) keys names := by
  refine ⟨⟨pre ++ '.' :: 'k' :: 'o' :: nul :: stale, pre.length + 3, none, keys ++ [i]⟩,
    (scanLoop_cons cursor_cons (by decide) step_dot_ko_nul).trans
      (scanLoop_nul (getElem?_behind pre _ 3)), ?_⟩
  -- the terminator of the line seals the last name
  have hsealed := forall₂_snoc (hkeys.imp fun _ _ hi => hi.append ['.', 'k', 'o', nul])
    hkey.sealed
  have hmap := map_cstr_of_sealed hsealed stale
  rw [List.append_assoc] at hmap
  rw [scanText_ko]
  exact hmap

/-- The round that passes a `.ko` and the separator behind it. -/
theorem Finds.ko {first : List Char} {d : Char} (hd : d ≠ nul)
    (h : Finds stale fuel (pre ++ ['.', 'k', 'o', nul]) text none none (keys ++ [i])
      (names ++ [first ++ ['.', 'k', 'o']])) :
    Finds stale (fuel + 1) pre ('.' :: 'k' :: 'o' :: d :: text) (some i) (some first) keys
      names := by
  obtain ⟨s, hs, hnames⟩ := h
  refine ⟨s, ?_, ?_⟩
  · rw [List.length_append, List.append_assoc] at hs
    exact (scanLoop_cons cursor_cons (by decide) (step_dot_ko hd)).trans hs
  · rw [hnames, scanText_ko, List.append_assoc]
    rfl

/-- **The loop finds the names of the text behind the cursor.** -/
theorem finds (hfuel : text.length < fuel) (hnul : nul ∉ text) (hkey : KeyAt pre key name)
    (hkeys : List.Forall₂ (Sealed pre) keys names) :
    Finds stale fuel pre text key name keys names := by
  -- the induction is on the length of the text, since a round can pass four characters
  induction hn : text.length using Nat.strongRecOn
    generalizing text pre key name keys names fuel with
  | _ n ih =>
  obtain ⟨fuel, rfl⟩ : ∃ f, fuel = f + 1 := ⟨fuel - 1, by omega⟩
  cases text with
  | nil => exact .nil hkeys
  | cons c text =>
    rw [List.mem_cons, not_or] at hnul
    rw [List.length_cons] at hfuel hn
    have hc : c ≠ nul := fun heq => hnul.1 heq.symm
    have hrest : ∀ key' name', KeyAt (pre ++ [c]) key' name' →
        Finds stale fuel (pre ++ [c]) text key' name' keys names := fun _ _ hkey' =>
      ih text.length (by omega) (by omega) hnul.2 hkey'
        (hkeys.imp fun _ _ hi => hi.append [c]) rfl
    match key, name, hkey with
    | none, none, _ =>
      by_cases halpha : c.isAlpha
      · obtain ⟨hslash, hdot⟩ := ne_of_isAlpha halpha
        exact .cons hc (step_of_ne hslash hdot fun _ => halpha) (by rw [scanText, if_pos halpha])
          (hrest _ _ (keyAt_singleton hc))
      · exact .cons hc (by simp [Scanner.step, halpha]) (by rw [scanText, if_neg halpha])
          (hrest none none trivial)
    | some i, some first, hkey =>
      by_cases hslash : c = '/'
      · have hnext := keyAt_nil (pre ++ [c])
        rw [List.length_append] at hnext
        exact .cons hc (by simp [Scanner.step, hslash]) (by rw [scanText, if_pos hslash])
          (hrest _ _ hnext)
      · by_cases hdot : c = '.'
        · subst hdot
          by_cases hko : text.take 2 = ['k', 'o']
          · obtain ⟨rest, rfl⟩ := eq_of_take_two hko
            simp only [List.length_cons] at hfuel hn
            cases rest with
            | nil =>
              obtain ⟨fuel, rfl⟩ : ∃ f, fuel = f + 1 := ⟨fuel - 1, by omega⟩
              exact .ko_nul hkey hkeys
            | cons d rest =>
              simp only [List.mem_cons, not_or] at hnul
              rw [List.length_cons] at hfuel hn
              have hkeys' := forall₂_snoc
                (hkeys.imp fun _ _ hi => hi.append ['.', 'k', 'o', nul]) hkey.sealed
              exact .ko (fun heq => hnul.2.2.2.1 heq.symm)
                (ih rest.length (by omega) (by omega) hnul.2.2.2.2
                  (show KeyAt _ none none from trivial) hkeys' rfl)
          · exact .cons hc (step_dot_of_ne hko)
              (by rw [scanText, if_neg hslash, if_pos rfl, if_neg hko])
              (hrest none none trivial)
        · exact .cons hc (step_of_ne hslash hdot nofun)
            (by rw [scanText, if_neg hslash, if_neg hdot]) (hrest _ _ (hkey.snoc hc))

/-- Cutting a text at its first NUL. -/
theorem takeWhile_nul_append (line stale : List Char) : ∃ rest,
    line ++ nul :: stale = line.takeWhile (· ≠ nul) ++ nul :: rest := by
  induction line with
  | nil => exact ⟨stale, rfl⟩
  | cons c line ih =>
    by_cases hc : c = nul
    · exact ⟨line ++ nul :: stale, by simp [hc]⟩
    · obtain ⟨rest, hrest⟩ := ih
      refine ⟨rest, ?_⟩
      rw [List.cons_append, hrest, List.takeWhile_cons_of_pos (by simpa using hc)]
      rfl

/-- **Scanning a buffer gives the names of the line in it**, whatever lies behind
the terminator. -/
theorem scanBuffer_names (line stale : List Char) :
    ∃ s, scanBuffer (line ++ nul :: stale) = some s ∧
      s.keys.map (cstr s.cline) = lineNames line := by
  obtain ⟨rest, hrest⟩ := takeWhile_nul_append line stale
  have hlen : (line.takeWhile (· ≠ nul)).length < (line ++ nul :: stale).length + 1 := by
    rw [hrest, List.length_append]
    omega
  have hnul : nul ∉ line.takeWhile (· ≠ nul) := fun h => by
    simpa using List.mem_takeWhile_imp h
  rw [scanBuffer, hrest]
  rw [hrest] at hlen
  exact finds hlen hnul (show KeyAt [] none none from trivial) .nil

end KernelConfiguration
