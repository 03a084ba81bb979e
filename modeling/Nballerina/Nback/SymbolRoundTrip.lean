import Nballerina.Nback.Symbol

/-!
# Mangled names are read back

`manglePublicSymbol` loses nothing and `_bal_print_mangled_name` reads it back, for the
symbols of all organisations but those that start with `ballerina_`
(`symbolsRight_iff`). For these the text after `ballerina` starts with a `_` that the
compiler does not separate from its length and the runtime takes for a separator.
-/

namespace Nballerina.Nback

/-! ## Parts of names -/

/-- A part that is not taken for a separator. -/
def Plain (name : Text) : Prop := ∃ c cs, name = c :: cs ∧ c ≠ '_'

/-- An accepted part starts with a letter. -/
theorem IsImportPart.cons {part : Text} (h : IsImportPart part) :
    ∃ c cs, part = c :: cs ∧ c.isAlpha = true ∧ ∀ d ∈ cs, isIdentifierFollowing d = true := by
  obtain ⟨hident, hvalid⟩ := h
  cases part with
  | nil => cases hident
  | cons c cs =>
    unfold isIdentifier at hident
    obtain ⟨hc, hcs⟩ := Bool.and_eq_true_iff.mp hident
    refine ⟨c, cs, rfl, ?_, fun d hd => List.all_eq_true.mp hcs d hd⟩
    rcases Bool.or_eq_true_iff.mp hc with halpha | hunder
    · exact halpha
    · -- a leading underscore is rejected
      rw [beq_iff_eq] at hunder
      subst hunder
      cases hvalid

variable {c : Char} {identifier name part q rest : Text}

theorem isIdentifierFollowing_of_isAlpha (h : c.isAlpha = true) :
    isIdentifierFollowing c = true := by
  simp [isIdentifierFollowing, Char.isAlphanum, h]

theorem isDigit_iff : c.isDigit = true ↔ 48 ≤ c.toNat ∧ c.toNat ≤ 57 := by
  simp only [Char.isDigit, Bool.and_eq_true, decide_eq_true_eq]
  exact and_congr UInt32.le_iff_toNat_le UInt32.le_iff_toNat_le

theorem not_isSpace_of_isDigit (h : c.isDigit = true) : isSpace c = false := by
  rw [isDigit_iff] at h
  rw [← Bool.not_eq_true]
  intro hspace
  rcases Bool.or_eq_true_iff.mp hspace with hblank | hrange
  · rw [beq_iff_eq] at hblank
    subst hblank
    exact absurd h (by decide)
  · have hle : c ≤ '\r' := of_decide_eq_true (Bool.and_eq_true_iff.mp hrange).2
    have hle : c.toNat ≤ 13 := UInt32.le_iff_toNat_le.mp hle
    omega

theorem ne_underscore_of_isAlpha (h : c.isAlpha = true) : c ≠ '_' := by
  intro hc
  subst hc
  exact absurd h (by decide)

theorem IsImportPart.plain (h : IsImportPart part) : Plain part := by
  obtain ⟨c, cs, hpart, hc, -⟩ := h.cons
  exact ⟨c, cs, hpart, ne_underscore_of_isAlpha hc⟩

theorem IsImportPart.following (h : IsImportPart part) :
    ∀ d ∈ part, isIdentifierFollowing d = true := by
  obtain ⟨c, cs, rfl, hc, hcs⟩ := h.cons
  intro d hd
  rcases List.mem_cons.mp hd with rfl | hd
  · exact isIdentifierFollowing_of_isAlpha hc
  · exact hcs d hd

/-! ## One part with its length -/

theorem delimitName_eq (name : Text) : delimitName name =
    Nat.toDigits 10 name.length ++ (if name.head?.any isDigit then '_' :: name else name) := by
  unfold delimitName
  split
  next => simp only [List.append_assoc, List.singleton_append]
  next => rfl

theorem takeWhile_toDigits (n : Nat) (hq : q.head?.any Char.isDigit = false) :
    (Nat.toDigits 10 n ++ q).takeWhile Char.isDigit = Nat.toDigits 10 n ∧
      (Nat.toDigits 10 n ++ q).dropWhile Char.isDigit = q := by
  have hdigits : ∀ c ∈ Nat.toDigits 10 n, c.isDigit = true := fun c hc =>
    Nat.isDigit_of_mem_toDigits (by decide) (by decide) hc
  rw [List.takeWhile_append_of_pos hdigits, List.dropWhile_append_of_pos hdigits]
  cases q with
  | nil => exact ⟨List.append_nil _, rfl⟩
  | cons c q =>
    have hc : c.isDigit = false := hq
    rw [List.takeWhile_cons_of_neg (by rw [hc]; decide), List.dropWhile_cons_of_neg (by rw [hc]; decide)]
    exact ⟨List.append_nil _, rfl⟩

theorem toDigits_cons (n : Nat) : ∃ c cs, Nat.toDigits 10 n = c :: cs ∧ c.isDigit = true := by
  cases h : Nat.toDigits 10 n with
  | nil => exact absurd h Nat.toDigits_ne_nil
  | cons c cs =>
    refine ⟨c, cs, rfl, Nat.isDigit_of_mem_toDigits (b := 10) (n := n) (by decide) (by decide) ?_⟩
    rw [h]
    exact .head _

theorem scanLong_toDigits (n : Nat) (hq : q.head?.any Char.isDigit = false) :
    scanLong (Nat.toDigits 10 n ++ q) = some ((n : Int), q) := by
  obtain ⟨htake, hdrop⟩ := takeWhile_toDigits n hq
  have hscan : scanDigits (Nat.toDigits 10 n ++ q) = some (n, q) := by
    simp only [scanDigits]
    rw [htake, hdrop, if_neg Nat.toDigits_ne_nil, Nat.ofDigitChars_ten_toDigits]
  -- the first character is neither a blank nor a sign
  obtain ⟨c, cs, hdigits, hc⟩ := toDigits_cons n
  have hspace : isSpace c = false := not_isSpace_of_isDigit hc
  have hnot : c ≠ '-' ∧ c ≠ '+' := by
    refine ⟨?_, ?_⟩ <;> (intro h; subst h; exact absurd hc (by decide))
  have hhead : (Nat.toDigits 10 n ++ q).dropWhile isSpace = Nat.toDigits 10 n ++ q := by
    rw [hdigits, List.cons_append, List.dropWhile_cons_of_neg (by rw [hspace]; decide)]
  simp only [scanLong]
  rw [hhead, if_neg, if_neg, hscan]
  · rfl
  · rw [hdigits]
    exact fun h => hnot.2 (Option.some.inj h)
  · rw [hdigits]
    exact fun h => hnot.1 (Option.some.inj h)

theorem stepChars_append {rest : Text} (hrest : rest ≠ []) : ∀ (name : Text),
    stepChars name.length (name ++ rest) = .ok (name, rest)
  | [] => rfl
  | c :: name => by
    show stepChars (name.length + 1) (c :: (name ++ rest)) = _
    rw [stepChars, if_neg (by simp [hrest]), stepChars_append hrest name]
    rfl

/-- After its length, a part is followed by whatever separates it from the length. -/
theorem demangleCountedName_eq (n : Nat) (hq : q.head?.any Char.isDigit = false) :
    demangleCountedName (Nat.toDigits 10 n ++ q) =
      stepChars n (if q.head? = some '_' then q.tail else q) := by
  unfold demangleCountedName
  rw [scanLong_toDigits n hq]
  rfl

theorem demangleCountedName_delimitName (hname : Plain name) (hrest : rest ≠ []) :
    demangleCountedName (delimitName name ++ rest) = .ok (name, rest) := by
  obtain ⟨c, cs, rfl, hc⟩ := hname
  rw [delimitName_eq, List.append_assoc]
  split
  next =>
    rw [demangleCountedName_eq _ (by rfl)]
    exact stepChars_append hrest (c :: cs)
  next hdigit =>
    rw [Bool.not_eq_true] at hdigit
    rw [List.cons_append, demangleCountedName_eq _ (by exact hdigit), List.head?_cons,
      if_neg (fun h => hc (Option.some.inj h))]
    exact stepChars_append hrest (c :: cs)

/-! ## The modules -/

theorem delimitName_head (name : Text) : ∃ c cs, delimitName name = c :: cs ∧
    c.isDigit = true := by
  obtain ⟨c, cs, hdigits, hc⟩ := toDigits_cons name.length
  rw [delimitName_eq, hdigits]
  exact ⟨c, _, rfl, hc⟩

theorem demangleModules_delimitName (name rest : Text) :
    demangleModules (delimitName name ++ rest) = .ok ([], delimitName name ++ rest) := by
  obtain ⟨c, cs, hname, hc⟩ := delimitName_head name
  rw [demangleModules, if_neg]
  rw [hname]
  intro h
  rw [Option.some.inj h] at hc
  exact absurd hc (by decide)

theorem demangleModules_m (hname : Plain name) (hrest : rest ≠ []) :
    demangleModules ('m' :: (delimitName name ++ rest)) =
      (demangleModules rest).map fun s => (name ++ '.' :: s.1, s.2) := by
  rw [demangleModules, List.head?_cons, if_pos rfl]
  have hcount := demangleCountedName_delimitName hname hrest
  split
  next e he => rw [List.tail_cons, hcount] at he; cases he
  next r hr =>
    rw [List.tail_cons, hcount] at hr
    cases hr
    rfl

theorem mangleModuleNames_ne_nil : ∀ {names : List Text}, names ≠ [] → mangleModuleNames names ≠ []
  | [name], _ => by
    obtain ⟨c, cs, hname, -⟩ := delimitName_head name
    rw [mangleModuleNames, hname]
    exact List.cons_ne_nil c cs
  | _ :: _ :: _, _ => List.cons_ne_nil _ _

/-- The names of a module as they are printed. -/
def moduleName : List Text → Text
  | [] => []
  | [name] => name
  | name :: names => name ++ '.' :: moduleName names

/-- What stands after the modules but the last is the last, with its length. -/
theorem demangleModules_mangleModuleNames (identifier : Text) : ∀ (names : List Text),
    names ≠ [] → (∀ name ∈ names, Plain name) → ∃ modules last, Plain last ∧
      demangleModules (mangleModuleNames names ++ identifier) =
        .ok (modules, delimitName last ++ identifier) ∧
      modules ++ last = moduleName names
  | [name], _, hplain =>
    ⟨[], name, hplain name (.head _), demangleModules_delimitName name identifier, rfl⟩
  | name :: name' :: names, _, hplain => by
    obtain ⟨modules, last, hlast, hdem, hprint⟩ :=
      demangleModules_mangleModuleNames identifier (name' :: names) (List.cons_ne_nil _ _)
        (fun x hx => hplain x (.tail _ hx))
    refine ⟨name ++ '.' :: modules, last, hlast, ?_, ?_⟩
    · have hrest : mangleModuleNames (name' :: names) ++ identifier ≠ [] :=
        List.append_ne_nil_of_left_ne_nil (mangleModuleNames_ne_nil (List.cons_ne_nil _ _)) _
      show demangleModules ('m' :: (delimitName name ++ mangleModuleNames (name' :: names)) ++
        identifier) = _
      rw [List.cons_append, List.append_assoc,
        demangleModules_m (hplain name (.head _)) hrest, hdem]
      rfl
    · show name ++ '.' :: modules ++ last = name ++ '.' :: moduleName (name' :: names)
      rw [← hprint, List.append_assoc, List.cons_append]

theorem demangleNames_mangleModuleNames {names : List Text} (hne : names ≠ [])
    (hplain : ∀ name ∈ names, Plain name) (hident : identifier ≠ []) (printedOrg : Text) :
    demangleNames printedOrg (mangleModuleNames names ++ identifier) =
      .ok (.publicBallerinaName identifier (printedOrg ++ moduleName names)) := by
  obtain ⟨modules, last, hlast, hdem, hprint⟩ :=
    demangleModules_mangleModuleNames identifier names hne hplain
  unfold demangleNames
  rw [hdem]
  dsimp only
  rw [demangleCountedName_delimitName hlast hident, ← hprint]
  dsimp only
  rw [List.append_assoc]

/-! ## The organisation -/

/-- The organisation and the modules as they are printed. -/
def qualifiedName (modId : ModuleId) : Text :=
  (if modId.org = [] then [] else modId.org ++ ['/']) ++ moduleName modId.names

/-- What a reader of a stack trace expects of a symbol. -/
def symbolText (s : PublicSymbol) : Text :=
  s.identifier ++ [' ', '('] ++ qualifiedName s.modId ++ [')']

/-- What is left of an organisation that starts with `ballerina`. -/
theorem mangleOrg_ballerina (rest : Text) :
    mangleOrg (BALLERINA ++ rest) = 'b' :: delimitName rest := rfl

/-- The length of a part that is not empty does not start with a `0`. -/
theorem toDigits_head_ne_zero : ∀ {n : Nat}, n ≠ 0 → ∀ (cs : Text),
    Nat.toDigits 10 n ≠ '0' :: cs := by
  intro n
  induction n using Nat.strongRecOn with
  | ind n ih =>
    intro hn cs h
    by_cases hlt : n < 10
    · rw [Nat.toDigits_of_lt_base hlt] at h
      have hchar := Nat.toNat_digitChar_sub_48_of_lt_ten hlt
      rw [List.head_eq_of_cons_eq h] at hchar
      exact hn hchar.symm
    · rw [Nat.toDigits_of_base_le (by decide) (by omega)] at h
      obtain ⟨c, ds, hdigits, -⟩ := toDigits_cons (n / 10)
      rw [hdigits, List.cons_append] at h
      rw [List.head_eq_of_cons_eq h] at hdigits
      exact ih (n / 10) (by omega) (by omega) ds hdigits

theorem demangleOrg_delimitName {org : Text} (horg : org = [] ∨ Plain org) (hrest : rest ≠ []) :
    demangleOrg (delimitName org ++ rest) = .ok (org, rest) := by
  rcases horg with rfl | hplain
  · rfl
  · unfold demangleOrg
    rw [if_neg, demangleCountedName_delimitName hplain hrest]
    obtain ⟨c, cs, rfl, -⟩ := hplain
    obtain ⟨d, ds, hdigits, -⟩ := toDigits_cons (c :: cs).length
    rw [delimitName_eq, hdigits]
    intro h
    have hd : d = '0' := Option.some.inj h
    subst hd
    exact toDigits_head_ne_zero (Nat.succ_ne_zero _) ds hdigits

theorem demangle_ballerina (mangledName : Text) :
    demangle ('_' :: 'B' :: 'b' :: mangledName) = demanglePublic true mangledName := rfl

theorem demangle_digit (hc : c.isDigit = true) (mangledName : Text) :
    demangle ('_' :: 'B' :: c :: mangledName) = demanglePublic false (c :: mangledName) := by
  have hne : c ≠ '_' ∧ c ≠ 'b' := by
    refine ⟨?_, ?_⟩ <;> (intro h; subst h; exact absurd hc (by decide))
  show (if some c = some '_' then _ else if some c = some 'b' then _ else _) = _
  rw [if_neg (fun h => hne.1 (Option.some.inj h)), if_neg (fun h => hne.2 (Option.some.inj h))]
  rfl

theorem demanglePublic_delimitName (ballerinaOrg : Bool) {org : Text} (horg : org = [] ∨ Plain org)
    {names : List Text} (hne : names ≠ []) (hplain : ∀ name ∈ names, Plain name)
    (hident : identifier ≠ []) :
    demanglePublic ballerinaOrg (delimitName org ++ (mangleModuleNames names ++ identifier)) =
      .ok (.publicBallerinaName identifier (printOrg ballerinaOrg org ++ moduleName names)) := by
  have hrest : mangleModuleNames names ++ identifier ≠ [] :=
    List.append_ne_nil_of_left_ne_nil (mangleModuleNames_ne_nil hne) _
  unfold demanglePublic
  rw [demangleOrg_delimitName horg hrest]
  exact demangleNames_mangleModuleNames hne hplain hident _

/-! ## Whole symbols -/

/-- `"ballerina_"`. -/
def BALLERINA_ : Text := BALLERINA ++ ['_']

/-- What mangling does to the organisation of a symbol, by whether it starts with
`ballerina`. -/
theorem manglePublicSymbol_cases (s : PublicSymbol) :
    (∃ rest, s.modId.org = BALLERINA ++ rest ∧ manglePublicSymbol s =
      '_' :: 'B' :: 'b' :: (delimitName rest ++
        (mangleModuleNames s.modId.names ++ s.identifier))) ∨
    (¬ BALLERINA <+: s.modId.org ∧ manglePublicSymbol s =
      '_' :: 'B' :: (delimitName s.modId.org ++
        (mangleModuleNames s.modId.names ++ s.identifier))) := by
  unfold manglePublicSymbol mangleOrg
  split
  next h =>
    obtain ⟨rest, hrest⟩ := List.isPrefixOf_iff_prefix.mp h
    refine .inl ⟨rest, hrest.symm, ?_⟩
    rw [← hrest, List.drop_left]
    simp
  next h =>
    refine .inr ⟨fun hpre => h (List.isPrefixOf_iff_prefix.mpr hpre), ?_⟩
    simp

theorem PublicSymbol.identifier_ne (s : PublicSymbol) : s.identifier ≠ [] := by
  intro h
  have hident := s.isIdentifier
  rw [h] at hident
  cases hident

theorem ModuleId.names_plain (m : ModuleId) : ∀ name ∈ m.names, Plain name := fun name h =>
  (m.names_part name h).plain

theorem ModuleId.org_plain (m : ModuleId) : m.org = [] ∨ Plain m.org :=
  m.org_part.imp_right IsImportPart.plain

/-- The runtime reads back every symbol but those of an organisation `ballerina_...`. -/
theorem demangle_eq (s : PublicSymbol) (h : ¬ BALLERINA_ <+: s.modId.org) :
    demangle (manglePublicSymbol s) =
      .ok (.publicBallerinaName s.identifier (qualifiedName s.modId)) := by
  rcases manglePublicSymbol_cases s with ⟨rest, horg, hmangled⟩ | ⟨hpre, hmangled⟩
  · have hrest : rest = [] ∨ Plain rest := by
      cases rest with
      | nil => exact .inl rfl
      | cons c cs =>
        refine .inr ⟨c, cs, rfl, fun hc => h ⟨cs, ?_⟩⟩
        rw [horg, BALLERINA_, List.append_assoc, hc, List.singleton_append]
    rw [hmangled, demangle_ballerina, demanglePublic_delimitName true hrest s.modId.names_ne
      s.modId.names_plain s.identifier_ne]
    unfold qualifiedName
    rw [horg]
    simp [printOrg, BALLERINA]
  · have hhead : demangle (manglePublicSymbol s) = demanglePublic false
        (delimitName s.modId.org ++ (mangleModuleNames s.modId.names ++ s.identifier)) := by
      obtain ⟨c, cs, hdelim, hc⟩ := delimitName_head s.modId.org
      rw [hmangled, hdelim]
      exact demangle_digit hc _
    rw [hhead, demanglePublic_delimitName false s.modId.org_plain s.modId.names_ne
      s.modId.names_plain s.identifier_ne]
    unfold qualifiedName
    by_cases horg : s.modId.org = []
    · simp [horg, printOrg]
    · simp [horg, printOrg]

theorem printMangledName_eq (s : PublicSymbol) (h : ¬ BALLERINA_ <+: s.modId.org) :
    printMangledName (manglePublicSymbol s) = .ok (symbolText s) := by
  unfold printMangledName
  rw [demangle_eq s h]
  rfl

/-! ## What is printed determines the symbol -/

/-- The text before the first separator. -/
theorem append_cons_inj {c : Char} : ∀ {x1 x2 y1 y2 : Text}, c ∉ x1 → c ∉ x2 →
    x1 ++ c :: y1 = x2 ++ c :: y2 → x1 = x2 ∧ y1 = y2
  | [], [], _, _, _, _, h => ⟨rfl, List.tail_eq_of_cons_eq h⟩
  | [], d :: x2, _, _, _, h2, h =>
    absurd (List.head_eq_of_cons_eq h ▸ (.head _)) h2
  | d :: x1, [], _, _, h1, _, h =>
    absurd ((List.head_eq_of_cons_eq h).symm ▸ (.head _)) h1
  | d :: x1, e :: x2, y1, y2, h1, h2, h => by
    have hd : d = e := List.head_eq_of_cons_eq h
    have htail : x1 ++ c :: y1 = x2 ++ c :: y2 := List.tail_eq_of_cons_eq h
    obtain ⟨hx, hy⟩ := append_cons_inj (fun hc => h1 (.tail d hc))
      (fun hc => h2 (.tail e hc)) htail
    rw [hd, hx]
    exact ⟨rfl, hy⟩

theorem notMem_of_following (hc : isIdentifierFollowing c = false)
    (h : ∀ d ∈ part, isIdentifierFollowing d = true) : c ∉ part := fun hmem => by
  rw [h c hmem] at hc
  cases hc

theorem moduleName_inj : ∀ {names names' : List Text}, names ≠ [] → names' ≠ [] →
    (∀ name ∈ names, '.' ∉ name) → (∀ name ∈ names', '.' ∉ name) →
    moduleName names = moduleName names' → names = names'
  | [name], [name'], _, _, _, _, h => congrArg (fun x => [x]) h
  | [name], name' :: n :: names', _, _, hdot, _, h => by
    have hname := hdot name (.head _)
    rw [show name = name' ++ '.' :: moduleName (n :: names') from h] at hname
    exact absurd (List.mem_append_right _ (.head _)) hname
  | name :: n :: names, [name'], _, _, _, hdot, h => by
    have hname := hdot name' (.head _)
    rw [show name' = name ++ '.' :: moduleName (n :: names) from h.symm] at hname
    exact absurd (List.mem_append_right _ (.head _)) hname
  | name :: n :: names, name' :: n' :: names', _, _, hdot, hdot', h => by
    obtain ⟨hname, hrest⟩ := append_cons_inj (hdot name (.head _))
      (hdot' name' (.head _)) h
    have ih := moduleName_inj (List.cons_ne_nil n names) (List.cons_ne_nil n' names')
      (fun x hx => hdot x (.tail _ hx))
      (fun x hx => hdot' x (.tail _ hx)) hrest
    rw [hname, ih]

theorem slash_notMem_moduleName : ∀ {names : List Text}, (∀ name ∈ names, '/' ∉ name) →
    '/' ∉ moduleName names
  | [], _ => List.not_mem_nil
  | [name], h => h name (.head _)
  | name :: n :: names, h => by
    show '/' ∉ name ++ '.' :: moduleName (n :: names)
    intro hmem
    rcases List.mem_append.mp hmem with hname | hrest
    · exact h name List.mem_cons_self hname
    · rcases List.mem_cons.mp hrest with hdot | hrest
      · exact absurd hdot (by decide)
      · exact slash_notMem_moduleName (fun x hx => h x (.tail _ hx)) hrest

theorem ModuleId.notMem_name (m : ModuleId) (hc : isIdentifierFollowing c = false) :
    ∀ name ∈ m.names, c ∉ name := fun name h =>
  notMem_of_following hc (m.names_part name h).following

theorem ModuleId.org_following (m : ModuleId) :
    ∀ d ∈ m.org, isIdentifierFollowing d = true := by
  rcases m.org_part with horg | horg
  · rw [horg]
    exact fun d hd => absurd hd List.not_mem_nil
  · exact horg.following

theorem ModuleId.notMem_org (m : ModuleId) (hc : isIdentifierFollowing c = false) :
    c ∉ m.org := notMem_of_following hc m.org_following

/-- Two modules with the same parts. -/
theorem ModuleId.eq_of {m1 m2 : ModuleId} (horg : m1.org = m2.org) (hnames : m1.names = m2.names) :
    m1 = m2 := by
  cases m1
  cases m2
  cases horg
  cases hnames
  rfl

theorem qualifiedName_inj {m1 m2 : ModuleId} (h : qualifiedName m1 = qualifiedName m2) :
    m1 = m2 := by
  have hslash : ∀ m : ModuleId, '/' ∉ moduleName m.names := fun m =>
    slash_notMem_moduleName (m.notMem_name (by decide))
  have hnames : ∀ {x y : ModuleId}, moduleName x.names = moduleName y.names →
      x.names = y.names := fun {x y} heq =>
    moduleName_inj x.names_ne y.names_ne (x.notMem_name (by decide)) (y.notMem_name (by decide)) heq
  unfold qualifiedName at h
  split at h
  next h1 =>
    split at h
    next h2 => exact ModuleId.eq_of (h1.trans h2.symm) (hnames h)
    next =>
      refine absurd ?_ (hslash m1)
      rw [show moduleName m1.names = m2.org ++ ['/'] ++ moduleName m2.names from h]
      simp
  next =>
    split at h
    next =>
      refine absurd ?_ (hslash m2)
      rw [show moduleName m2.names = m1.org ++ ['/'] ++ moduleName m1.names from h.symm]
      simp
    next =>
      rw [List.append_assoc, List.append_assoc] at h
      obtain ⟨horg, hrest⟩ := append_cons_inj (m1.notMem_org (by decide))
        (m2.notMem_org (by decide)) h
      exact ModuleId.eq_of horg (hnames hrest)

theorem manglePublicSymbol_inj {s1 s2 : PublicSymbol} (h1 : ¬ BALLERINA_ <+: s1.modId.org)
    (h2 : ¬ BALLERINA_ <+: s2.modId.org) (h : manglePublicSymbol s1 = manglePublicSymbol s2) :
    s1 = s2 := by
  have hdem := (demangle_eq s1 h1).symm.trans ((congrArg demangle h).trans (demangle_eq s2 h2))
  injection hdem with hdem
  injection hdem with hident hqual
  have hmod := qualifiedName_inj hqual
  cases s1
  cases s2
  cases hident
  cases hmod
  rfl

/-! ## Organisations that start with `ballerina_` -/

theorem delimitName_following (h : ∀ d ∈ name, isIdentifierFollowing d = true) :
    ∀ d ∈ delimitName name, isIdentifierFollowing d = true := by
  intro d hd
  rw [delimitName_eq] at hd
  rcases List.mem_append.mp hd with hdigit | hrest
  · have := Nat.isDigit_of_mem_toDigits (by decide) (by decide) hdigit
    simp [isIdentifierFollowing, Char.isAlphanum, this]
  · split at hrest
    · rcases List.mem_cons.mp hrest with rfl | hname
      · rfl
      · exact h d hname
    · exact h d hrest

theorem mangleModuleNames_following : ∀ {names : List Text},
    (∀ name ∈ names, ∀ d ∈ name, isIdentifierFollowing d = true) →
    ∀ d ∈ mangleModuleNames names, isIdentifierFollowing d = true
  | [], _, d, hd => absurd hd List.not_mem_nil
  | [name], h, d, hd => delimitName_following (h name (.head _)) d hd
  | name :: n :: names, h, d, hd => by
    rcases List.mem_cons.mp hd with rfl | hd
    · rfl
    · rcases List.mem_append.mp hd with hname | hrest
      · exact delimitName_following (h name (.head _)) d hname
      · exact mangleModuleNames_following (fun x hx => h x (.tail _ hx)) d hrest

theorem identifier_following (h : isIdentifier identifier = true) :
    ∀ d ∈ identifier, isIdentifierFollowing d = true := by
  cases identifier with
  | nil => exact fun d hd => absurd hd List.not_mem_nil
  | cons c cs =>
    obtain ⟨hc, hcs⟩ := Bool.and_eq_true_iff.mp h
    intro d hd
    rcases List.mem_cons.mp hd with rfl | hd
    · rcases Bool.or_eq_true_iff.mp hc with hc | hc
      · exact isIdentifierFollowing_of_isAlpha hc
      · unfold isIdentifierFollowing
        rw [hc, Bool.or_true]
    · exact List.all_eq_true.mp hcs d hd

theorem manglePublicSymbol_following (s : PublicSymbol) :
    ∀ d ∈ manglePublicSymbol s, isIdentifierFollowing d = true := by
  have hafter : ∀ d ∈ mangleModuleNames s.modId.names ++ s.identifier,
      isIdentifierFollowing d = true := fun d hd => by
    rcases List.mem_append.mp hd with hd | hd
    · exact mangleModuleNames_following
        (fun name hname => (s.modId.names_part name hname).following) d hd
    · exact identifier_following s.isIdentifier d hd
  have horg : ∀ {org : Text}, org ⊆ s.modId.org → ∀ d ∈ delimitName org ++
      (mangleModuleNames s.modId.names ++ s.identifier), isIdentifierFollowing d = true :=
    fun hsub d hd => by
      rcases List.mem_append.mp hd with hd | hd
      · exact delimitName_following (fun e he => s.modId.org_following e (hsub he)) d hd
      · exact hafter d hd
  intro d hd
  rcases manglePublicSymbol_cases s with ⟨rest, hrest, hmangled⟩ | ⟨-, hmangled⟩
  · rw [hmangled, List.mem_cons, List.mem_cons, List.mem_cons] at hd
    rcases hd with rfl | rfl | rfl | hd
    · rfl
    · rfl
    · rfl
    · refine horg (fun e he => ?_) d hd
      rw [hrest]
      exact List.mem_append_right _ he
  · rw [hmangled, List.mem_cons, List.mem_cons] at hd
    rcases hd with rfl | rfl | hd
    · rfl
    · rfl
    · exact horg (fun e he => he) d hd

/-- A module name starts with a length or with an `m`. -/
theorem mangleModuleNames_head : ∀ {names : List Text}, names ≠ [] →
    ∃ c cs, mangleModuleNames names = c :: cs ∧ c ≠ '_' ∧ c ≠ '/'
  | [name], _ => by
    obtain ⟨c, cs, hname, hc⟩ := delimitName_head name
    refine ⟨c, cs, hname, ?_, ?_⟩ <;> (intro h; subst h; exact absurd hc (by decide))
  | name :: n :: names, _ => ⟨'m', _, rfl, by decide, by decide⟩

theorem demangleModules_suffix {p : Text} {r : Text × Text} (h : demangleModules p = .ok r) :
    r.2 <:+ p := by
  induction hn : p.length using Nat.strongRecOn generalizing p r with
  | ind n ih =>
    rw [demangleModules] at h
    split at h
    next hm =>
      split at h
      next => cases h
      next q hq =>
        have hsuffix := demangleCountedName_suffix hq
        have hlen : q.2.length < n := by
          have hle := hsuffix.length_le
          have hp : p ≠ [] := fun hnil => by rw [hnil] at hm; cases hm
          have hpos := List.length_pos_iff.mpr hp
          rw [List.length_tail] at hle
          omega
        cases hrec : demangleModules q.2 with
        | error e => rw [hrec] at h; cases h
        | ok r' =>
          rw [hrec] at h
          cases h
          exact (ih _ hlen hrec rfl).trans (hsuffix.trans (List.tail_suffix p))
    next =>
      cases h
      exact List.suffix_refl p

/-- Whatever is read after the organisation, it does not change what is printed of it. -/
theorem demangleNames_cases (printedOrg mangledName : Text) :
    demangleNames printedOrg mangledName = .error .overrun ∨
    demangleNames printedOrg mangledName = .ok .nonBallerinaName ∨
    ∃ localName printed, localName <:+ mangledName ∧
      demangleNames printedOrg mangledName =
        .ok (.publicBallerinaName localName (printedOrg ++ printed)) := by
  unfold demangleNames
  split
  next => exact .inl rfl
  next => exact .inr (.inl rfl)
  next modules hmodules =>
    split
    next => exact .inl rfl
    next => exact .inr (.inl rfl)
    next last hlast =>
      refine .inr (.inr ⟨last.2, modules.1 ++ last.1, ?_, ?_⟩)
      · exact (demangleCountedName_suffix hlast).trans (demangleModules_suffix hmodules)
      · rw [List.append_assoc]

/-- The runtime drops the `_` and takes a character of the modules instead. -/
theorem demangleOrg_underscore (t : Text) (hrest : rest ≠ []) :
    demangleOrg (delimitName ('_' :: t) ++ c :: rest) = .ok (t ++ [c], rest) := by
  have hdelim : delimitName ('_' :: t) ++ c :: rest =
      Nat.toDigits 10 (t ++ [c]).length ++ '_' :: ((t ++ [c]) ++ rest) := by
    rw [delimitName_eq, List.head?_cons, Option.any_some,
      if_neg (show ¬ isDigit '_' = true by decide)]
    simp
  unfold demangleOrg
  rw [if_neg, hdelim, demangleCountedName_eq _ (by rfl), List.head?_cons, if_pos rfl]
  · exact stepChars_append hrest (t ++ [c])
  · obtain ⟨d, ds, hdigits, -⟩ := toDigits_cons (t ++ [c]).length
    rw [hdelim, hdigits]
    intro h
    rw [Option.some.inj h] at hdigits
    exact toDigits_head_ne_zero (by simp) ds hdigits

theorem append_singleton_ne_cons {t : Text} {d : Char} (h : c ≠ d) : t ++ [c] ≠ d :: t := by
  intro heq
  have hcount := congrArg (List.count d) heq
  rw [List.count_append, List.count_cons_self, List.count_singleton,
    if_neg (by simpa using h)] at hcount
  omega

theorem printMangledName_ne (s : PublicSymbol) (h : BALLERINA_ <+: s.modId.org) :
    printMangledName (manglePublicSymbol s) ≠ .ok (symbolText s) := by
  obtain ⟨t, horg⟩ := h
  have horg : s.modId.org = BALLERINA ++ '_' :: t := by
    rw [← horg, BALLERINA_, List.append_assoc, List.singleton_append]
  obtain ⟨c, cs, hmodules, hunder, hslash⟩ := mangleModuleNames_head s.modId.names_ne
  have hrest : cs ++ s.identifier ≠ [] := List.append_ne_nil_of_right_ne_nil _ s.identifier_ne
  have hmangled : manglePublicSymbol s =
      '_' :: 'B' :: 'b' :: (delimitName ('_' :: t) ++ c :: (cs ++ s.identifier)) := by
    unfold manglePublicSymbol
    rw [horg, mangleOrg_ballerina, hmodules]
    simp
  have hdem : demangle (manglePublicSymbol s) =
      demangleNames (BALLERINA ++ (t ++ [c]) ++ ['/']) (cs ++ s.identifier) := by
    rw [hmangled, demangle_ballerina]
    unfold demanglePublic
    rw [demangleOrg_underscore t hrest]
    rfl
  -- the symbol's own text has a blank, the mangled name has none
  have hblank : ' ' ∉ manglePublicSymbol s :=
    notMem_of_following (by decide) (manglePublicSymbol_following s)
  have hblank' : ' ' ∉ s.identifier := notMem_of_following (by decide)
    (identifier_following s.isIdentifier)
  intro hprint
  unfold printMangledName at hprint
  rw [hdem] at hprint
  rcases demangleNames_cases (BALLERINA ++ (t ++ [c]) ++ ['/']) (cs ++ s.identifier) with
    hover | hnon | ⟨localName, printed, hsuffix, hpublic⟩
  · rw [hover] at hprint
    cases hprint
  · rw [hnon] at hprint
    have htext : manglePublicSymbol s = symbolText s := Except.ok.inj hprint
    rw [htext] at hblank
    exact hblank (by simp [symbolText])
  · rw [hpublic] at hprint
    have htext := Except.ok.inj hprint
    have hlocal : ' ' ∉ localName := fun hmem => hblank (by
      rw [hmangled]
      simp [hsuffix.mem hmem])
    simp only [symbolText, List.append_assoc] at htext
    obtain ⟨-, hafter⟩ := append_cons_inj hlocal hblank' htext
    -- the two texts up to the first `/`
    have hqual : t ++ c :: '/' :: (printed ++ [')']) =
        '_' :: t ++ '/' :: (moduleName s.modId.names ++ [')']) := by
      unfold qualifiedName at hafter
      rw [if_neg (by rw [horg]; simp), horg] at hafter
      simpa [BALLERINA] using hafter
    have hslash' : '/' ∉ '_' :: t := by
      have hnot : '/' ∉ s.modId.org := s.modId.notMem_org (by decide)
      rw [horg] at hnot
      exact fun hmem => hnot (List.mem_append_right _ hmem)
    have hslash'' : '/' ∉ t ++ [c] := by
      intro hmem
      rcases List.mem_append.mp hmem with hmem | hmem
      · exact hslash' (.tail _ hmem)
      · exact hslash (List.mem_singleton.mp hmem).symm
    rw [show t ++ c :: '/' :: (printed ++ [')']) = t ++ [c] ++ '/' :: (printed ++ [')']) by simp]
      at hqual
    exact append_singleton_ne_cons hunder (append_cons_inj hslash'' hslash' hqual).1

/-- What is asked of the names of two symbols: different symbols have different names, and
a stack trace shows each symbol as itself. -/
def SymbolsRight (s1 s2 : PublicSymbol) : Prop :=
  (manglePublicSymbol s1 = manglePublicSymbol s2 → s1 = s2) ∧
  printMangledName (manglePublicSymbol s1) = .ok (symbolText s1) ∧
  printMangledName (manglePublicSymbol s2) = .ok (symbolText s2)

/-- The names of two symbols are right exactly when neither is of an organisation that
starts with `ballerina_`. -/
theorem symbolsRight_iff (s1 s2 : PublicSymbol) : SymbolsRight s1 s2 ↔
    ¬ BALLERINA_ <+: s1.modId.org ∧ ¬ BALLERINA_ <+: s2.modId.org := by
  refine ⟨fun h => ⟨fun h1 => ?_, fun h2 => ?_⟩, fun h => ⟨fun heq => ?_, ?_, ?_⟩⟩
  · exact printMangledName_ne s1 h1 h.2.1
  · exact printMangledName_ne s2 h2 h.2.2
  · exact manglePublicSymbol_inj h.1 h.2 heq
  · exact printMangledName_eq s1 h.1
  · exact printMangledName_eq s2 h.2

/-- `ballerina_1/choreoabcdefghijklmnopq:hello`. -/
def underscoreSymbol : PublicSymbol where
  modId :=
    { org := "ballerina_1".toList
      names := ["choreoabcdefghijklmnopq".toList]
      org_part := Or.inr (by decide)
      names_ne := by decide
      names_part := by decide }
  identifier := "hello".toList
  isIdentifier := by decide

/-- `ballerina12/cho:reoabcdefghijklmnopqhello`. -/
def digitSymbol : PublicSymbol where
  modId :=
    { org := "ballerina12".toList
      names := ["cho".toList]
      org_part := Or.inr (by decide)
      names_ne := by decide
      names_part := by decide }
  identifier := "reoabcdefghijklmnopqhello".toList
  isIdentifier := by decide

/-- Both are `_Bb2_123choreoabcdefghijklmnopqhello`. -/
theorem not_symbolsRight_underscore : ¬ SymbolsRight underscoreSymbol digitSymbol := by
  intro h
  have hmangled : manglePublicSymbol underscoreSymbol = manglePublicSymbol digitSymbol := by
    decide
  have horg := congrArg (fun s => s.modId.org) (h.1 hmangled)
  exact absurd horg (by decide)

end Nballerina.Nback
