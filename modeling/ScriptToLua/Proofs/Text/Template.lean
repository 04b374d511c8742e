import Mathlib
import ScriptToLua.Diagnostic
import ScriptToLua.Proofs.Numeral

/-!
Message templates and the substitution of all arguments at once. `substitute` cuts a template into
characters and marks and puts every argument in the places of its mark. Filling a template one
argument after the other comes to the same if no argument that has been put in makes a new mark for a
later one: `fill_eq_substitute`. Messages with one argument are always filled right.
-/

namespace ScriptToLua.Text

/-- A part of a template. -/
inductive Part where
  | char (c : Char)
  | mark (i : Nat)
  deriving DecidableEq

/-- The position whose mark stands at the front of a text. -/
def markAt? : List Char → Option Nat
  | '{' :: cs =>
    (Numeral.natural? 10 (cs.takeWhile Char.isDigit)).filter fun i =>
      (placeholder i).isPrefixOf ('{' :: cs)
  | _ => none

/-- The parts of a template after passing over `skip` characters of a mark. -/
def partsFrom : (skip : Nat) → List Char → List Part
  | _, [] => []
  | skip + 1, _ :: cs => partsFrom skip cs
  | 0, c :: cs =>
    match markAt? (c :: cs) with
    | some i => .mark i :: partsFrom ((placeholder i).length - 1) cs
    | none => .char c :: partsFrom 0 cs

def parts (template : List Char) : List Part := partsFrom 0 template

/-- The text for a part. A mark without an argument stands for itself. -/
def Part.filled (args : List String) : Part → List Char
  | char c => [c]
  | mark i => (args[i]?.map String.toList).getD (placeholder i)

/-- The template with all arguments put in at once. -/
def substitute (args : List String) (template : List Char) : List Char :=
  (parts template).flatMap (Part.filled args)

/-- In how many places of a text a pattern begins. -/
def occurrences (pattern : List Char) : List Char → Nat
  | [] => 0
  | c :: cs => (if pattern <+: c :: cs then 1 else 0) + occurrences pattern cs

/-- The arguments before the one at position `k` make no new mark for it, neither by themselves nor
together with the text around them. -/
def Undisturbed (template : List Char) (args : List String) (k : Nat) : Prop :=
  occurrences (placeholder k) (substitute (args.take k) template) =
    occurrences (placeholder k) template

instance (template : List Char) (args : List String) (k : Nat) :
    Decidable (Undisturbed template args k) := inferInstanceAs (Decidable (_ = _))

section Replacing

variable {p r : List Char} {c : Char} {cs x : List Char}

theorem occurrences_append_le (p x cs : List Char) :
    occurrences p cs ≤ occurrences p (x ++ cs) := by
  induction x with
  | nil => exact le_rfl
  | cons c x ih => exact ih.trans (Nat.le_add_left _ _)

theorem occurrences_pattern_append_le (hp : p ≠ []) (cs : List Char) :
    occurrences p cs + 1 ≤ occurrences p (p ++ cs) := by
  obtain ⟨c, p', rfl⟩ := List.exists_cons_of_ne_nil hp
  rw [List.cons_append, occurrences, ← List.cons_append, if_pos (List.prefix_append _ _),
    Nat.add_comm]
  exact Nat.add_le_add_left (occurrences_append_le _ _ _) 1

theorem replaceFrom_eq (p r : List Char) (skip : Nat) (cs : List Char) :
    replaceFrom p r skip cs = replaceAll p r (cs.drop skip) := by
  induction skip generalizing cs with
  | zero => rfl
  | succ skip ih =>
    cases cs with
    | nil => rfl
    | cons c cs => exact ih cs

theorem replaceAll_append (hp : p ≠ []) (cs : List Char) :
    replaceAll p r (p ++ cs) = r ++ replaceAll p r cs := by
  obtain ⟨c, p', rfl⟩ := List.exists_cons_of_ne_nil hp
  rw [replaceAll, List.cons_append, replaceFrom, ← List.cons_append,
    if_pos (List.isPrefixOf_iff_prefix.2 (List.prefix_append _ _)), replaceFrom_eq]
  simp

theorem replaceAll_cons (h : ¬p <+: c :: cs) :
    replaceAll p r (c :: cs) = c :: replaceAll p r cs := by
  rw [replaceAll, replaceFrom, if_neg (List.isPrefixOf_iff_prefix.not.2 h)]
  rfl

/-- Text in which no occurrence begins is kept. -/
theorem replaceAll_append_of_occurrences (h : occurrences p (x ++ cs) = occurrences p cs) :
    replaceAll p r (x ++ cs) = x ++ replaceAll p r cs := by
  induction x with
  | nil => rfl
  | cons c x ih =>
    rw [List.cons_append, occurrences] at h
    have hle := occurrences_append_le p x cs
    have hno : ¬p <+: c :: (x ++ cs) := by
      intro hc
      rw [if_pos hc] at h
      omega
    rw [if_neg hno] at h
    rw [List.cons_append, replaceAll_cons hno, ih (by omega), List.cons_append]

end Replacing

section Marks

variable {i k : Nat} {cs x : List Char}

theorem placeholder_ne_nil (i : Nat) : placeholder i ≠ [] := List.cons_ne_nil _ _

theorem takeWhile_isDigit_toDigits (i : Nat) (cs : List Char) :
    (Nat.toDigits 10 i ++ '}' :: cs).takeWhile Char.isDigit = Nat.toDigits 10 i := by
  rw [List.takeWhile_append_of_pos (Numeral.isDecimalOf_toDigits i).digits]
  exact List.append_nil _

/-- A text begins with the mark that is read off it. -/
theorem markAt?_eq_some_iff : markAt? cs = some i ↔ placeholder i <+: cs := by
  constructor
  · intro h
    unfold markAt? at h
    split at h
    · exact List.isPrefixOf_iff_prefix.1 (Option.filter_eq_some_iff.1 h).2
    · cases h
  · rintro ⟨rest, rfl⟩
    have hcs : placeholder i ++ rest = '{' :: (Nat.toDigits 10 i ++ '}' :: rest) := by
      simp [placeholder]
    have hprefix : (placeholder i).isPrefixOf (placeholder i ++ rest) :=
      List.isPrefixOf_iff_prefix.2 (List.prefix_append _ _)
    rw [hcs] at hprefix ⊢
    rw [markAt?, takeWhile_isDigit_toDigits, (Numeral.isDecimalOf_toDigits i).value,
      Option.filter_some, if_pos hprefix]

theorem eq_of_beginsWith (hi : placeholder i <+: cs) (hk : placeholder k <+: cs) :
    i = k :=
  Option.some.inj ((markAt?_eq_some_iff.2 hi).symm.trans (markAt?_eq_some_iff.2 hk))

/-- Marks begin with an opening brace. -/
theorem not_beginsWith {c : Char} (h : c ≠ '{') : ¬placeholder k <+: c :: cs := by
  rw [placeholder, List.cons_append, List.cons_prefix_cons]
  exact fun hc => h hc.1.symm

theorem occurrences_append_of_ne (h : ∀ c ∈ x, c ≠ '{') (k : Nat) (cs : List Char) :
    occurrences (placeholder k) (x ++ cs) = occurrences (placeholder k) cs := by
  induction x with
  | nil => rfl
  | cons c x ih =>
    rw [List.cons_append, occurrences, if_neg (not_beginsWith (h c List.mem_cons_self)),
      Nat.zero_add]
    exact ih fun d hd => h d (List.mem_cons_of_mem c hd)

/-- Marks do not overlap. -/
theorem occurrences_placeholder_append (i k : Nat) (cs : List Char) :
    occurrences (placeholder k) (placeholder i ++ cs) =
      (if i = k then 1 else 0) + occurrences (placeholder k) cs := by
  have hrest : ∀ c ∈ Nat.toDigits 10 i ++ ['}'], c ≠ '{' := by
    rintro c hc rfl
    rcases List.mem_append.1 hc with hc | hc
    · exact absurd ((Numeral.isDecimalOf_toDigits i).digits '{' hc) (by decide)
    · exact absurd (List.mem_singleton.1 hc) (by decide)
  have hprefix : placeholder k <+: placeholder i ++ cs ↔ i = k :=
    ⟨eq_of_beginsWith (List.prefix_append _ _), fun h => h ▸ List.prefix_append _ _⟩
  calc
    occurrences (placeholder k) (placeholder i ++ cs) =
        (if placeholder k <+: placeholder i ++ cs then 1 else 0) +
          occurrences (placeholder k) ((Nat.toDigits 10 i ++ ['}']) ++ cs) := rfl
    _ = (if i = k then 1 else 0) + occurrences (placeholder k) cs := by
      rw [occurrences_append_of_ne hrest, if_congr hprefix rfl rfl]

theorem eq_placeholder_append {c : Char} (h : placeholder i <+: c :: cs) :
    c :: cs = placeholder i ++ cs.drop ((placeholder i).length - 1) := by
  have hlength : (placeholder i).length = (placeholder i).length - 1 + 1 := rfl
  have happend := List.prefix_iff_eq_append.1 h
  rw [hlength, List.drop_succ_cons] at happend
  exact happend.symm

/-- A mark stands where it has been read off, and nowhere else. -/
theorem occurrences_drop_eq_count (k skip : Nat) (cs : List Char) :
    occurrences (placeholder k) (cs.drop skip) = (partsFrom skip cs).count (.mark k) := by
  fun_induction partsFrom skip cs with
  | case1 skip => simp [occurrences]
  | case2 skip c cs ih => exact ih
  | case3 c cs i hi ih =>
    rw [List.drop_zero, eq_placeholder_append (markAt?_eq_some_iff.1 hi),
      occurrences_placeholder_append, ih, List.count_cons, Nat.add_comm]
    simp
  | case4 c cs hno ih =>
    have hprefix : ¬placeholder k <+: c :: cs := by
      intro h
      rw [markAt?_eq_some_iff.2 h] at hno
      cases hno
    rw [List.drop_zero, occurrences, if_neg hprefix, Nat.zero_add]
    simpa using ih

theorem occurrences_eq_count (k : Nat) (template : List Char) :
    occurrences (placeholder k) template = (parts template).count (.mark k) :=
  occurrences_drop_eq_count k 0 template

/-- Without arguments the template stays as it is. -/
theorem substitute_nil (template : List Char) : substitute [] template = template := by
  have hdrop : ∀ skip cs, (partsFrom skip cs).flatMap (Part.filled []) = cs.drop skip := by
    intro skip cs
    fun_induction partsFrom skip cs with
    | case1 skip => simp
    | case2 skip c cs ih => exact ih
    | case3 c cs i hi ih =>
      rw [List.flatMap_cons, ih]
      exact (eq_placeholder_append (markAt?_eq_some_iff.1 hi)).symm
    | case4 c cs hno ih =>
      rw [List.flatMap_cons, ih]
      rfl
  exact hdrop 0 template

end Marks

section Rounds

variable (args : List String) (arg : String) (ps : List Part)

/-- The next argument changes the text for its own marks only. -/
theorem filled_append {p : Part} (h : p ≠ .mark args.length) :
    p.filled (args ++ [arg]) = p.filled args := by
  cases p with
  | char c => rfl
  | mark i =>
    have hi : i ≠ args.length := fun hi => h (hi ▸ rfl)
    have hget : (args ++ [arg])[i]? = args[i]? := by
      rw [List.getElem?_append, List.getElem?_singleton]
      grind
    rw [Part.filled, hget, Part.filled]

theorem filled_next : (Part.mark args.length).filled args = placeholder args.length := by
  simp [Part.filled]

theorem filled_append_next : (Part.mark args.length).filled (args ++ [arg]) = arg.toList := by
  simp [Part.filled]

theorem count_le_occurrences :
    ps.count (.mark args.length) ≤
      occurrences (placeholder args.length) (ps.flatMap (Part.filled args)) := by
  induction ps with
  | nil => exact le_rfl
  | cons p ps ih =>
    rw [List.flatMap_cons]
    by_cases hp : p = .mark args.length
    · rw [hp, List.count_cons_self, filled_next]
      exact (Nat.add_le_add_right ih 1).trans
        (occurrences_pattern_append_le (placeholder_ne_nil _) _)
    · rw [List.count_cons_of_ne hp]
      exact ih.trans (occurrences_append_le _ _ _)

/-- Replacing the marks of an argument puts it into its places if there are no other such marks. -/
theorem replaceAll_flatMap
    (h : occurrences (placeholder args.length) (ps.flatMap (Part.filled args)) =
      ps.count (.mark args.length)) :
    replaceAll (placeholder args.length) arg.toList (ps.flatMap (Part.filled args)) =
      ps.flatMap (Part.filled (args ++ [arg])) := by
  induction ps with
  | nil => rfl
  | cons p ps ih =>
    have hcount := count_le_occurrences args ps
    rw [List.flatMap_cons] at h ⊢
    rw [List.flatMap_cons]
    by_cases hp : p = .mark args.length
    · rw [hp, List.count_cons_self, filled_next] at h
      have hle := occurrences_pattern_append_le (placeholder_ne_nil args.length)
        (ps.flatMap (Part.filled args))
      rw [hp, filled_next, filled_append_next, replaceAll_append (placeholder_ne_nil _),
        ih (by omega)]
    · rw [List.count_cons_of_ne hp] at h
      have hle := occurrences_append_le (placeholder args.length) (p.filled args)
        (ps.flatMap (Part.filled args))
      rw [replaceAll_append_of_occurrences (by omega), filled_append args arg hp, ih (by omega)]

/-- Marks take up the rest of the length if nothing is put in for them. -/
theorem length_flatMap_append_empty :
    (ps.flatMap (Part.filled (args ++ [""]))).length +
        ps.count (.mark args.length) * (placeholder args.length).length =
      (ps.flatMap (Part.filled args)).length := by
  induction ps with
  | nil => simp
  | cons p ps ih =>
    rw [List.flatMap_cons, List.flatMap_cons, List.length_append, List.length_append, ← ih]
    by_cases hp : p = .mark args.length
    · rw [hp, List.count_cons_self, filled_next, filled_append_next, Nat.succ_mul]
      simp only [String.toList_empty, List.length_nil]
      omega
    · rw [List.count_cons_of_ne hp, filled_append args "" hp]
      omega

end Rounds

theorem length_replaceFrom_nil (k skip : Nat) (cs : List Char) :
    (replaceFrom (placeholder k) [] skip cs).length +
        occurrences (placeholder k) (cs.drop skip) * (placeholder k).length =
      (cs.drop skip).length := by
  fun_induction replaceFrom (placeholder k) [] skip cs with
  | case1 skip => simp [occurrences]
  | case2 skip c cs ih => exact ih
  | case3 c cs hp ih =>
    rw [List.drop_zero, eq_placeholder_append (List.isPrefixOf_iff_prefix.1 hp),
      occurrences_placeholder_append, if_pos rfl, List.length_append, List.length_append,
      List.length_nil, Nat.add_mul, ← ih]
    omega
  | case4 c cs hp ih =>
    rw [List.isPrefixOf_iff_prefix] at hp
    rw [List.drop_zero] at ih ⊢
    rw [occurrences, if_neg hp, Nat.zero_add, List.length_cons, List.length_cons, ← ih]
    omega

/-- An argument is put into its places, whatever it is, if its mark stands nowhere else and only
then. -/
theorem replaceAll_substitute_iff (args : List String) (template : List Char) :
    (∀ arg : String, replaceAll (placeholder args.length) arg.toList (substitute args template) =
        substitute (args ++ [arg]) template) ↔
      occurrences (placeholder args.length) (substitute args template) =
        occurrences (placeholder args.length) template := by
  rw [occurrences_eq_count args.length template]
  constructor
  · intro h
    have hreplaced : (replaceAll (placeholder args.length) [] (substitute args template)).length +
        occurrences (placeholder args.length) (substitute args template) *
          (placeholder args.length).length = (substitute args template).length :=
      length_replaceFrom_nil args.length 0 (substitute args template)
    have hfilled : (substitute (args ++ [""]) template).length +
        (parts template).count (.mark args.length) * (placeholder args.length).length =
          (substitute args template).length := length_flatMap_append_empty args (parts template)
    have hempty := congrArg List.length (h "")
    rw [String.toList_empty] at hempty
    have hlength := List.length_pos_iff.2 (placeholder_ne_nil args.length)
    exact Nat.eq_of_mul_eq_mul_right hlength (by omega)
  · exact fun h arg => replaceAll_flatMap args arg _ h

variable {template : String} {args : List String}

theorem fillFrom_substitute {template : List Char} (rest done : List String)
    (h : ∀ k < (done ++ rest).length, done.length ≤ k → Undisturbed template (done ++ rest) k) :
    fillFrom done.length (substitute done template) rest = substitute (done ++ rest) template := by
  induction rest generalizing done with
  | nil => rw [List.append_nil, fillFrom]
  | cons arg rest ih =>
    have hround := h done.length (by simp) le_rfl
    rw [Undisturbed, List.take_left] at hround
    have hlength : (done ++ [arg]).length = done.length + 1 := List.length_append
    have hargs : done ++ [arg] ++ rest = done ++ arg :: rest := List.append_assoc _ _ _
    have hnext := ih (done ++ [arg])
    rw [hlength, hargs] at hnext
    rw [fillFrom, (replaceAll_substitute_iff done template).2 hround arg]
    exact hnext fun k hk hle => h k hk (Nat.le_of_succ_le hle)

theorem undisturbed_zero (template : List Char) (args : List String) :
    Undisturbed template args 0 := by
  rw [Undisturbed, List.take_zero, substitute_nil]

/-- A single argument goes into its places whatever it contains. -/
theorem fill_of_length_le_one (h : args.length ≤ 1) :
    fill template args = String.ofList (substitute args template.toList) := by
  have hfill := fillFrom_substitute args [] fun k hk _ =>
    Nat.lt_one_iff.1 (hk.trans_le h) ▸ undisturbed_zero template.toList args
  rw [substitute_nil] at hfill
  exact congrArg String.ofList hfill

/-- Filling a template puts all its arguments in at once, if no argument makes a new mark for a later
one. -/
theorem fill_eq_substitute (h : ∀ k < args.length, Undisturbed template.toList args k) :
    fill template args = String.ofList (substitute args template.toList) := by
  have hfill := fillFrom_substitute args [] fun k hk _ => h k hk
  rw [substitute_nil] at hfill
  exact congrArg String.ofList hfill

/-- Arguments may contain braces and the marks of arguments before them. -/
theorem fill_eq_substitute_of_braces :
    (∀ k < ["a{2}", "{0}"].length, Undisturbed "{1}: {0}, {1}".toList ["a{2}", "{0}"] k) ∧
      fill "{1}: {0}, {1}" ["a{2}", "{0}"] = "{0}: a{2}, {0}" := by
  have h : ∀ k < ["a{2}", "{0}"].length, Undisturbed "{1}: {0}, {1}".toList ["a{2}", "{0}"] k := by
    decide
  exact ⟨h, (fill_eq_substitute h).trans (by decide)⟩

/-- The first argument is a mark for the second, which takes its place. -/
theorem not_fill_eq_substitute :
    fill "{0}" ["{1}", "x"] = "x" ∧ String.ofList (substitute ["{1}", "x"] "{0}".toList) = "{1}" := by
  decide

end ScriptToLua.Text

namespace ScriptToLua

/-- No report has more than one detail, so every report is its template with the details put in. -/
theorem Problem.fill_details (p : Problem) :
    Text.fill p.message.template p.details =
      String.ofList (Text.substitute p.details p.message.template.toList) := by
  refine Text.fill_of_length_le_one ?_
  cases p with
  | unsupportedSyntax | unknownArrayMethod => exact le_rfl
  | invalidDeleteOperand | lengthAssignment | tooDeep | invalidTarget => exact Nat.zero_le 1

end ScriptToLua
