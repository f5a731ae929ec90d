import UnixProgramming.Logger.Memory

/-!
# What a blacklist reports

`compare_blacklist` on an array of rules that are not empty. It reports every name that
some rule matches as a shell pattern. Rules without a `*` are meant to name what they block,
but the loop takes the end of the name for a match, wherever it is in the rule.
-/

namespace UnixProgramming.Logger

variable {filename path : CString} {fresh : ℕ → Char} {st : Statics}

/-- `compare_blacklist` returns 1 for a name and an array of rules. -/
def Blocks (fresh : ℕ → Char) (st : Statics) (rules : List CString) (filename : CString) : Prop :=
  ∃ st', compareBlacklistIn fresh st filename (some (ruleArray rules)) = .ok (true, st')

/-- A rule that is not empty is compared inside of its arrays when the last part of the name
fits, or is not asked for. -/
theorem ruleInside_of_fits (hne : path.chars ≠ [])
    (hfits : ['.', '/'] <+: path.chars → LastPartFits filename) : RuleInside filename path := by
  by_cases hdot : ['.', '/'] <+: path.chars
  · exact .inr ⟨hne, .inr (.inr (hfits hdot))⟩
  · exact .inr ⟨hne, .inr (.inl hdot)⟩

/-- Blocking is decided by the comparison on lists. -/
theorem blocks_iff {rules : List CString} (hrules : ∀ rule ∈ rules, RuleInside filename rule) :
    Blocks fresh st rules filename ↔
      ∃ rule ∈ rules, compareRule filename.chars rule.chars = true := by
  obtain ⟨st', hcall⟩ := compareBlacklistIn_ruleArray fresh st hrules
  rw [Blocks, hcall]
  simp [compareBlacklist]

/-- No rule is bypassed: for every array of rules that are not empty, every name of which the
last part fits is reported when a rule matches it as a shell pattern, whatever the other
rules are. -/
theorem blocks_of_globMatches (fresh : ℕ → Char) (st : Statics) (rules : List CString)
    (hne : ∀ rule ∈ rules, rule.chars ≠ []) (filename : CString) (hfits : LastPartFits filename)
    (hmatch : ∃ rule ∈ rules, globMatches '*' rule.chars filename.chars = true) :
    Blocks fresh st rules filename := by
  obtain ⟨rule, hrule, hglob⟩ := hmatch
  have hinside : ∀ rule ∈ rules, RuleInside filename rule :=
    fun rule hrule => ruleInside_of_fits (hne rule hrule) fun _ => hfits
  rw [blocks_iff hinside]
  exact ⟨rule, hrule, compareRule_of_globMatches hglob (List.prefix_refl _)⟩

/-- The rule `/etc/*` behind another one blocks `/etc/passwd`. -/
theorem blocks_of_globMatches_passwd :
    Blocks (fun _ => 'x') .zero [⟨"./a.txt".toList, by decide⟩, ⟨"/etc/*".toList, by decide⟩]
      ⟨"/etc/passwd".toList, by decide⟩ := by
  apply blocks_of_globMatches
  · decide
  · unfold LastPartFits
    decide +kernel
  · refine ⟨⟨"/etc/*".toList, by decide⟩, List.mem_cons_of_mem _ List.mem_cons_self, ?_⟩
    decide +kernel

/-! ## Rules that name what they block -/

/-- A rule that is not empty, has no `*` and does not start with `./`. -/
structure ExactRule extends CString where
  nonempty : chars ≠ []
  noStar : '*' ∉ chars
  noLastPart : ¬['.', '/'] <+: chars

/-- What is left of a rule is a part of it. -/
theorem advance_snd_suffix (f p : List Char) : (advance f p).2 <:+ p := by
  fun_induction advance f p with
  | case1 c f d p hsame ih => exact ih.trans (List.suffix_cons d p)
  | case2 => exact List.suffix_refl _
  | case3 => exact List.suffix_refl _

/-- Without a `*` in the rule, the loop gets to the end of exactly its initial parts. -/
theorem advance_fst_eq_nil_iff {f p : List Char} (hstar : '*' ∉ p) :
    (advance f p).1 = [] ↔ f <+: p := by
  fun_induction advance f p with
  | case1 c f d p hsame ih =>
    rw [ih fun hmem => hstar (List.mem_cons_of_mem d hmem), hsame.2, List.cons_prefix_cons]
    simp
  | case2 c f d p hdiffer =>
    have hne : c ≠ d := fun heq => hdiffer ⟨fun hd => hstar (hd ▸ List.mem_cons_self), heq⟩
    simp [List.cons_prefix_cons, hne]
  | case3 f p hend =>
    cases f with
    | nil => simp
    | cons c f =>
      cases p with
      | nil => simp
      | cons d p => exact absurd rfl (hend c f d p rfl)

/-- An exact rule reports its initial parts. -/
theorem compareRule_exact (rule : ExactRule) :
    compareRule filename.chars rule.chars = true ↔ filename.chars <+: rule.chars := by
  have hhead : (advance filename.chars rule.chars).2.head? ≠ some '*' :=
    fun heq => rule.noStar ((advance_snd_suffix _ _).subset (List.mem_of_head? heq))
  have hlast : rule.chars.getLast? ≠ some '*' :=
    fun heq => rule.noStar (List.mem_of_getLast? heq)
  rw [compareRule_eq_true_iff]
  simp [StopsAtMatch, ContainsStem, hhead, hlast, rule.noLastPart,
    advance_fst_eq_nil_iff rule.noStar]

/-- Exact rules block a name only when it is one of them. -/
def BlocksOnlyNamed (fresh : ℕ → Char) (st : Statics) (rules : List ExactRule)
    (filename : CString) : Prop :=
  Blocks fresh st (rules.map ExactRule.toCString) filename →
    ∃ rule ∈ rules, rule.chars = filename.chars

/-- For every array of exact rules and every name: only what the rules name is blocked, exactly
when the name is one of the rules or is not the beginning of any. -/
theorem blocksOnlyNamed_iff (fresh : ℕ → Char) (st : Statics) (rules : List ExactRule)
    (filename : CString) :
    BlocksOnlyNamed fresh st rules filename ↔
      (∃ rule ∈ rules, rule.chars = filename.chars) ∨
        ∀ rule ∈ rules, ¬filename.chars <+: rule.chars := by
  have hinside : ∀ rule ∈ rules.map ExactRule.toCString, RuleInside filename rule := by
    intro rule hrule
    obtain ⟨exact, -, rfl⟩ := List.mem_map.mp hrule
    exact ruleInside_of_fits exact.nonempty fun hdot => absurd hdot exact.noLastPart
  have hblocks : Blocks fresh st (rules.map ExactRule.toCString) filename ↔
      ∃ rule ∈ rules, filename.chars <+: rule.chars := by
    rw [blocks_iff hinside]
    simp [compareRule_exact]
  rw [BlocksOnlyNamed, hblocks, imp_iff_not_or, or_comm]
  simp

/-- An address that a rule blocks. -/
def blockedAddress : ExactRule where
  chars := "172.217.160.100".toList
  noNul := by decide
  nonempty := by decide
  noStar := by decide
  noLastPart := by decide

/-- An address that has the same beginning is blocked as well. -/
theorem not_blocksOnlyNamed_address : ¬∀ (fresh : ℕ → Char) (st : Statics)
    (rules : List ExactRule) (filename : CString), BlocksOnlyNamed fresh st rules filename := by
  intro hall
  have honly := hall (fun _ => 'x') .zero [blockedAddress] ⟨"172.217.160.10".toList, by decide⟩
  obtain ⟨rule, hrule, hname⟩ := honly ⟨.zero, rfl⟩
  rw [List.mem_singleton] at hrule
  subst hrule
  revert hname
  decide

end UnixProgramming.Logger
