import Lazaret.X509.Constrained
import Lazaret.X509.Explore
import Mathlib.Data.List.Nodup

/-!
# Building a path is sound and complete

`IsPath` says what a path is, whatever built it: the leaf, some of the certificates that were sent,
each at most once and none of them self-issued, and an anchor of the store, each one the issuer of
the one before it, and all of it passing the checks.
-/

namespace Lazaret.X509

open List

variable {P : Prims} {R : Reader} {q : Query R}

/-! ## The paths there are -/

/-- One certificate was issued by another: the names are the same and the signature verifies. -/
def Issued (P : Prims) (c issuer : Certificate) : Prop :=
  issuer.subjectKey = c.issuerKey ∧ verifySignedBy P c issuer = .ok ()

/-- A path from the first certificate of a chain through others that were sent with it to an anchor
of the store. -/
structure IsPath (P : Prims) (store : TrustStore R) (opts : VerifyOptions)
    (chainDer : List (List UInt8)) (leaf : Certificate) (mids : List Certificate) (r : Root R)
    (root : Certificate) : Prop where
  first : ∃ der ∈ chainDer.head?, R.parse der = .ok leaf
  length_le : mids.length ≤ MAX_CHAIN_DEPTH
  sent : ∀ c ∈ mids, ∃ der ∈ chainDer.tail, R.parse der = .ok c
  distinct : ((leaf :: mids).map Certificate.der).Nodup
  selfIssued : ∀ c ∈ mids, c.isSelfIssued = false
  anchor : r ∈ store.roots
  certificate : r.certificate = some root
  issued : List.IsChain (Issued P) (leaf :: mids ++ [root])
  distrust : ∀ t, r.distrustAfter = some t → leaf.notBefore ≤ t
  passes : checkPath P opts store.minRsaBits (webRules store opts) leaf (mids ++ [root]) = .ok ()

variable {leaf root : Certificate}

lemma checkDistrust_eq_ok {t : Option ℤ} {u : Unit} :
    checkDistrust leaf root t = .ok u ↔ ∀ d, t = some d → leaf.notBefore ≤ d := by
  rw [checkDistrust]
  cases t with
  | none => simp
  | some d =>
    by_cases h : d < leaf.notBefore
    · simp [Option.filter, h, pathErr]
    · simp [Option.filter, h, not_lt.1 h]

variable {above : List Certificate}

/-- An anchor ends a path exactly when it issued its last certificate, its date allows the leaf and
the path passes. -/
lemma endsIn_iff {p : List Certificate} :
    (∃ a ∈ q.store.anchorsFor (q.top above).issuerKey, EndsIn P q above a p) ↔
      ∃ r ∈ q.store.roots, ∃ root, r.certificate = some root ∧ Issued P (q.top above) root ∧
        (∀ t, r.distrustAfter = some t → q.leaf.notBefore ≤ t) ∧
        checkPath P q.opts q.store.minRsaBits (webRules q.store q.opts) q.leaf
          (above ++ [root]) = .ok () ∧
        p = above ++ [root] := by
  simp only [TrustStore.mem_anchorsFor, EndsIn, checkAnchor, except_bind_eq_ok,
    checkDistrust_eq_ok, Issued]
  constructor
  · rintro ⟨⟨root, t⟩, ⟨r, hr, hc, rfl, hkey⟩, hsigned, ⟨_, ht, hpass⟩, rfl⟩
    exact ⟨r, hr, root, hc, ⟨hkey, hsigned⟩, ht, hpass, rfl⟩
  · rintro ⟨r, hr, root, hc, ⟨hkey, hsigned⟩, ht, hpass, rfl⟩
    exact ⟨(root, r.distrustAfter), ⟨r, hr, hc, rfl, hkey⟩, hsigned, ⟨(), ht, hpass⟩, rfl⟩

/-- The places of some intermediates, no two the same and none in the path yet. -/
def At (q : Query R) (used : List Bool) (js : List ℕ) (mids : List Certificate) : Prop :=
  js.Nodup ∧ (∀ j ∈ js, used[j]? = some false) ∧
    List.Forall₂ (fun j c => q.inters[j]? = some c) js mids

/-- A path goes on through those intermediates to an anchor. -/
structure Continues (P : Prims) (q : Query R) (left : ℕ) (above : List Certificate)
    (used : List Bool) (mids : List Certificate) (r : Root R) (root : Certificate) : Prop where
  length_le : mids.length ≤ left
  places : ∃ js, At q used js mids
  selfIssued : ∀ c ∈ mids, c.isSelfIssued = false
  anchor : r ∈ q.store.roots
  certificate : r.certificate = some root
  issued : List.IsChain (Issued P) (q.top above :: mids ++ [root])
  distrust : ∀ t, r.distrustAfter = some t → q.leaf.notBefore ≤ t
  passes : checkPath P q.opts q.store.minRsaBits (webRules q.store q.opts) q.leaf (above ++ mids ++
    [root]) = .ok ()

lemma top_concat (above : List Certificate) (c : Certificate) : q.top (above ++ [c]) = c := by
  rw [Query.top, getLast?_concat, Option.getD_some]

lemma Completion.continues {left : ℕ} {p : List Certificate} {used : List Bool}
    (h : Completion P q left above used p) :
    ∃ mids r root, Continues P q left above used mids r root ∧ p = above ++ mids ++ [root] := by
  induction h with
  | @anchor left above used p a ha hends =>
    obtain ⟨r, hr, root, hc, hissued, ht, hpass, rfl⟩ := endsIn_iff.1 ⟨a, ha, hends⟩
    refine ⟨[], r, root, ⟨Nat.zero_le _, ⟨[], by simp, by simp, .nil⟩, by simp, hr, hc, ?_, ht,
      by rwa [append_nil]⟩, by rw [append_nil]⟩
    simpa using hissued
  | @step left above used p i ic hi hused hkey hself hsigned hrest ih =>
    obtain ⟨mids, r, root, hcont, rfl⟩ := ih
    obtain ⟨js, hnodup, hfree, hplaces⟩ := hcont.places
    have hne (j : ℕ) (hj : j ∈ js) : j ≠ i ∧ used[j]? = some false := by
      have hset := hfree j hj
      rw [getElem?_set] at hset
      split at hset
      · split at hset
        · cases hset
        · cases hset
      · rename_i hij
        exact ⟨fun h => hij h.symm, hset⟩
    have happ : above ++ [ic] ++ mids ++ [root] = above ++ (ic :: mids) ++ [root] := by simp
    refine ⟨ic :: mids, r, root, ⟨Nat.succ_le_succ hcont.length_le, ⟨i :: js, ?_, ?_, ?_⟩, ?_,
      hcont.anchor, hcont.certificate, ?_, hcont.distrust, happ ▸ hcont.passes⟩, happ⟩
    · exact nodup_cons.2 ⟨fun hmem => (hne i hmem).1 rfl, hnodup⟩
    · rintro j (_ | ⟨_, hj⟩)
      · exact hused
      · exact (hne j hj).2
    · exact .cons hi hplaces
    · rintro c (_ | ⟨_, hc⟩)
      · exact hself
      · exact hcont.selfIssued c hc
    · have hissued := hcont.issued
      rw [top_concat] at hissued
      exact .cons_cons ⟨hkey, hsigned⟩ hissued

variable {r : Root R} {mids : List Certificate}

lemma Continues.completion {left : ℕ} {used : List Bool}
    (h : Continues P q left above used mids r root) :
    Completion P q left above used (above ++ mids ++ [root]) := by
  induction mids generalizing left above used with
  | nil =>
    have hpass := h.passes
    rw [append_nil] at hpass ⊢
    obtain ⟨a, ha, hends⟩ := endsIn_iff.2 ⟨r, h.anchor, root, h.certificate,
      by simpa using h.issued, h.distrust, hpass, rfl⟩
    exact .anchor ha hends
  | cons c mids ih =>
    obtain ⟨left, rfl⟩ : ∃ l, left = l + 1 :=
      ⟨left - 1, by have := h.length_le; simp at this; omega⟩
    obtain ⟨js, hnodup, hfree, hplaces⟩ := h.places
    cases hplaces with
    | @cons j _ js _ hj hplaces =>
      rw [nodup_cons] at hnodup
      have hissued := isChain_cons_cons.1 h.issued
      have happ : above ++ (c :: mids) ++ [root] = above ++ [c] ++ mids ++ [root] := by simp
      have hcont : Continues P q left (above ++ [c]) (used.set j true) mids r root := by
        refine ⟨Nat.le_of_succ_le_succ h.length_le, ⟨js, hnodup.2, fun k hk => ?_, hplaces⟩,
          fun d hd => h.selfIssued d (mem_cons_of_mem _ hd), h.anchor, h.certificate, ?_,
          h.distrust, happ ▸ h.passes⟩
        · have hkj : j ≠ k := fun heq => hnodup.1 (heq ▸ hk)
          rw [getElem?_set_ne hkj]
          exact hfree k (mem_cons_of_mem _ hk)
        · rw [top_concat]
          exact hissued.2
      rw [happ]
      exact .step hj (hfree j mem_cons_self) hissued.1.1
        (h.selfIssued c mem_cons_self) hissued.1.2 (ih hcont)

/-! ## The intermediates -/

/-- The intermediates of a query are those of the certificates that were sent, but for the leaf,
that parse, each once. -/
lemma collect_spec (seen ders : List (List UInt8)) :
    ((collect R seen ders).map Certificate.der).Nodup ∧
      ∀ c, c ∈ collect R seen ders ↔ ∃ der ∈ ders, der ∉ seen ∧ R.parse der = .ok c := by
  induction ders generalizing seen with
  | nil => exact ⟨nodup_nil, fun c => by simp [collect]⟩
  | cons der rest ih =>
    simp only [collect, any_eq_true, decide_eq_true_iff, exists_eq_right]
    by_cases hseen : der ∈ seen
    · rw [if_pos hseen]
      refine ⟨(ih seen).1, fun c => ?_⟩
      rw [(ih seen).2, exists_mem_cons_iff, or_iff_right fun h => h.1 hseen]
    · obtain ⟨hnodup, hmem⟩ := ih (seen ++ [der])
      -- what comes later has another DER
      have hlater (c : Certificate) (hc : c ∈ collect R (seen ++ [der]) rest) : c.der ≠ der := by
        obtain ⟨d, -, hd, hparse⟩ := (hmem c).1 hc
        rw [R.parse_der hparse]
        rintro rfl
        exact hd (by simp)
      rw [if_neg hseen]
      cases hparse : R.parse der with
      | error e =>
        simp only [Except.toOption, Option.toList_none, nil_append]
        refine ⟨hnodup, fun c => ?_⟩
        rw [hmem, exists_mem_cons_iff, or_iff_right fun h => by simp [hparse] at h]
        refine exists_congr fun d => and_congr_right fun _ => ?_
        rw [mem_append, mem_singleton, not_or, and_assoc]
        refine and_congr_right fun _ => and_iff_right_of_imp ?_
        rintro hd rfl
        simp [hparse] at hd
      | ok c₀ =>
        simp only [Except.toOption, Option.toList_some, singleton_append]
        constructor
        · rw [map_cons, nodup_cons, R.parse_der hparse, mem_map]
          refine ⟨?_, hnodup⟩
          rintro ⟨c, hc, heq⟩
          exact hlater c hc heq
        · intro c
          rw [mem_cons, hmem, exists_mem_cons_iff]
          constructor
          · rintro (rfl | ⟨d, hd, hnew, hc⟩)
            · exact .inl ⟨hseen, hparse⟩
            · exact .inr ⟨d, hd, fun h => hnew (mem_append_left _ h), hc⟩
          · rintro (⟨-, hc⟩ | ⟨d, hd, hnew, hc⟩)
            · rw [hparse] at hc
              exact .inl (Except.ok.inj hc).symm
            · by_cases hdd : d = der
              · subst hdd
                rw [hparse] at hc
                exact .inl (Except.ok.inj hc).symm
              · exact .inr ⟨d, hd, by simp [hnew, hdd], hc⟩

lemma nodup_of_places {js : List ℕ}
    (hplaces : Forall₂ (fun j c => q.inters[j]? = some c) js mids)
    (hinters : (q.inters.map Certificate.der).Nodup) :
    js.Nodup ↔ (mids.map Certificate.der).Nodup := by
  induction hplaces with
  | nil => simp
  | @cons j c js mids hj hplaces ih =>
    rw [nodup_cons, map_cons, nodup_cons, ih]
    refine and_congr_left fun _ => not_congr ⟨fun hmem => ?_, fun hmem => ?_⟩
    · obtain ⟨i, hi⟩ := getElem?_of_mem hmem
      obtain ⟨d, hd, hdj⟩ := forall₂_getElem? hplaces hi
      rw [hj, Option.some.injEq] at hdj
      exact mem_map.2 ⟨d, mem_of_getElem? hd, by rw [hdj]⟩
    · obtain ⟨d, hd, hder⟩ := mem_map.1 hmem
      obtain ⟨i, hi⟩ := getElem?_of_mem hd
      obtain ⟨k, hk, hdk⟩ := forall₂_getElem? hplaces.flip hi
      -- the same DER stands at one place only
      have hjk : j = k := by
        obtain ⟨hjlt, rfl⟩ := List.getElem?_eq_some_iff.1 hj
        obtain ⟨hklt, rfl⟩ := List.getElem?_eq_some_iff.1 hdk
        have hjlt' : j < (q.inters.map Certificate.der).length := by simpa using hjlt
        have hklt' : k < (q.inters.map Certificate.der).length := by simpa using hklt
        have heq : (q.inters.map Certificate.der)[j] = (q.inters.map Certificate.der)[k] := by
          simpa using hder.symm
        exact hinters.getElem_inj_iff.1 heq
      exact hjk ▸ mem_of_getElem? hk

lemma exists_places (hsent : ∀ c ∈ mids, c ∈ q.inters) :
    ∃ js : List ℕ, Forall₂ (fun j c => q.inters[j]? = some c) js mids := by
  induction mids with
  | nil => exact ⟨[], .nil⟩
  | cons c mids ih =>
    obtain ⟨js, hjs⟩ := ih fun d hd => hsent d (mem_cons_of_mem _ hd)
    obtain ⟨j, hj⟩ := getElem?_of_mem (hsent c mem_cons_self)
    exact ⟨j :: js, .cons hj hjs⟩

lemma query_eq_ok {store : TrustStore R} {opts : VerifyOptions} {chainDer : List (List UInt8)} :
    query store chainDer opts = .ok q ↔
      ¬ (opts.purpose = .ServerAuth ∧ opts.hostname = none) ∧
        ∃ der rest leaf, chainDer = der :: rest ∧ R.parse der = .ok leaf ∧
          q = { store, opts, leaf, inters := collect R [der] rest } := by
  cases chainDer with
  | nil => simp [query]
  | cons der rest =>
    rw [query]
    split_ifs with hhost
    · exact iff_of_false (by simp) fun h => h.1 hhost
    · simp only [except_bind_eq_ok, Except.ok.injEq]
      constructor
      · rintro ⟨leaf, hparse, rfl⟩
        exact ⟨hhost, der, rest, leaf, rfl, hparse, rfl⟩
      · rintro ⟨-, _, _, leaf, heq, hparse, rfl⟩
        obtain ⟨rfl, rfl⟩ := cons.inj heq
        exact ⟨leaf, hparse, rfl⟩

lemma isPath_iff {store : TrustStore R} {opts : VerifyOptions} {chainDer : List (List UInt8)}
    (hq : query store chainDer opts = .ok q)
    : IsPath P store opts chainDer q.leaf mids r root ↔
      Continues P q MAX_CHAIN_DEPTH q.start.above q.start.used mids r root := by
  obtain ⟨-, der, rest, leaf, rfl, hparse, rfl⟩ := query_eq_ok.1 hq
  obtain ⟨hinters, hmem⟩ := collect_spec (R := R) [der] rest
  have hleaf : leaf.der = der := R.parse_der hparse
  constructor
  · intro h
    obtain ⟨hnew, hdistinct⟩ := nodup_cons.1 h.distinct
    have hsent (c : Certificate) (hc : c ∈ mids) : c ∈ collect R [der] rest := by
      obtain ⟨d, hd, hdc⟩ := h.sent c hc
      refine (hmem c).2 ⟨d, hd, fun hdd => hnew ?_, hdc⟩
      rw [mem_singleton] at hdd
      exact mem_map.2 ⟨c, hc, (R.parse_der hdc).trans (hdd.trans hleaf.symm)⟩
    obtain ⟨js, hjs⟩ :=
      exists_places (q := { store, opts, leaf, inters := collect R [der] rest }) hsent
    refine ⟨h.length_le, ⟨js, (nodup_of_places hjs hinters).2 hdistinct, fun j hj => ?_, hjs⟩,
      h.selfIssued, h.anchor, h.certificate, h.issued, h.distrust, h.passes⟩
    obtain ⟨i, hi⟩ := getElem?_of_mem hj
    obtain ⟨c, -, hc⟩ := forall₂_getElem? hjs hi
    have hlt := (List.getElem?_eq_some_iff.1 hc).1
    simp [Query.start, hlt]
  · intro h
    obtain ⟨js, hnodup, -, hjs⟩ := h.places
    have hsent (c : Certificate) (hc : c ∈ mids) : ∃ d ∈ rest, d ≠ der ∧ R.parse d = .ok c := by
      obtain ⟨i, hi⟩ := getElem?_of_mem hc
      obtain ⟨j, -, hj⟩ := forall₂_getElem? hjs.flip hi
      obtain ⟨d, hd, hne, hdc⟩ := (hmem c).1 (mem_of_getElem? hj)
      exact ⟨d, hd, fun heq => hne (heq ▸ mem_singleton_self _), hdc⟩
    refine ⟨⟨der, rfl, hparse⟩, h.length_le, fun c hc => ?_, nodup_cons.2 ⟨?_,
      (nodup_of_places hjs hinters).1 hnodup⟩, h.selfIssued, h.anchor, h.certificate, h.issued,
      h.distrust, h.passes⟩
    · obtain ⟨d, hd, -, hdc⟩ := hsent c hc
      exact ⟨d, hd, hdc⟩
    · intro hmem
      obtain ⟨c, hc, hder⟩ := mem_map.1 hmem
      obtain ⟨d, -, hne, hdc⟩ := hsent c hc
      exact hne ((R.parse_der hdc).symm.trans (hder.trans hleaf))

/-! ## The search for a chain -/

variable {store : TrustStore R} {opts : VerifyOptions} {chainDer : List (List UInt8)}

lemma query_explored (hq : query store chainDer opts = .ok q) :
    Explored searchView (fun p => ∃ mids r root,
        IsPath P store opts chainDer q.leaf mids r root ∧ p = mids ++ [root]) q.start
      (q.search P).2 (q.search P).1 := by
  refine (search_explored (P := P) (q := q) MAX_CHAIN_DEPTH q.start).congr fun p => ?_
  constructor
  · intro h
    obtain ⟨mids, r, root, hcont, rfl⟩ := h.continues
    exact ⟨mids, r, root, (isPath_iff hq).2 hcont, rfl⟩
  · rintro ⟨mids, r, root, hpath, rfl⟩
    exact ((isPath_iff hq).1 hpath).completion

lemma verifyChain_path {v : VerifiedChain} (h : store.verifyChain P chainDer opts = .ok v) :
    ∃ mids r root, IsPath P store opts chainDer v.leaf mids r root ∧
      v.path = (v.leaf :: mids).map Certificate.der ++ [r.der] := by
  obtain ⟨q, hq, hresult⟩ := except_bind_eq_ok.1 h
  rw [Query.result] at hresult
  split_ifs at hresult with hfound
  obtain rfl := Except.ok.inj hresult
  obtain ⟨mids, r, root, hpath, hp⟩ := (query_explored hq).found hfound
  refine ⟨mids, r, root, hpath, ?_⟩
  have habove : (q.search P).2.above = mids ++ [root] := hp
  simp [habove, Root.der_eq hpath.certificate]

lemma verifyChain_of_path (hhost : opts.purpose = .ServerAuth → opts.hostname ≠ none)
    (hpath : IsPath P store opts chainDer leaf mids r root)
    (hbudget : ¬ store.RunsOut P chainDer opts) :
    ∃ v, store.verifyChain P chainDer opts = .ok v := by
  obtain ⟨der, hder, hparse⟩ := hpath.first
  obtain ⟨rest, rfl⟩ : ∃ rest, chainDer = der :: rest :=
    ⟨chainDer.tail, (cons_head?_tail hder).symm⟩
  have hq : query store (der :: rest) opts =
      .ok { store, opts, leaf, inters := collect R [der] rest } :=
    query_eq_ok.2 ⟨fun h => hhost h.1 h.2, der, rest, leaf, rfl, hparse, rfl⟩
  have hexp := query_explored (P := P) hq
  rw [TrustStore.verifyChain, hq]
  cases hfound : (Query.search P { store, opts, leaf, inters := collect R [der] rest }).1 with
  | true => exact ⟨_, if_pos hfound⟩
  | false =>
    rw [hfound] at hexp
    have hcost : (Query.search P { store, opts, leaf, inters := collect R [der] rest }).2.attempts
        ≤ MAX_PATH_ATTEMPTS := by
      refine not_lt.1 fun hlt => hbudget ⟨_, ?_, hlt⟩
      rw [TrustStore.searched, hq]
      rfl
    exact absurd ⟨mids, r, root, hpath, rfl⟩ (hexp.exhausted rfl hcost (mids ++ [root]))

lemma IsPath.mono
    {chainDer' : List (List UInt8)} (h : IsPath P store opts chainDer leaf mids r root)
    (hhead : chainDer'.head? = chainDer.head?) (htail : ∀ d ∈ chainDer.tail, d ∈ chainDer'.tail) :
    IsPath P store opts chainDer' leaf mids r root :=
  { h with
    first := hhead ▸ h.first
    sent := fun c hc => by
      obtain ⟨d, hd, hdc⟩ := h.sent c hc
      exact ⟨d, htail d hd, hdc⟩ }

lemma checks_le {s : Search} (h : s ∈ store.searched P chainDer opts) :
    s.checks ≤ MAX_PATH_ATTEMPTS := by
  obtain ⟨q, hq, rfl⟩ := Option.map_eq_some_iff.1 h
  cases hquery : query store chainDer opts with
  | error e => simp [hquery, Except.toOption] at hq
  | ok q' =>
    simp only [hquery, Except.toOption, Option.some.injEq] at hq
    subst hq
    exact ((query_explored hquery).inv ⟨le_rfl, Nat.zero_le _⟩).2

/-- Building a path is sound; it is complete unless the budget ran out; it depends on the
certificates after the leaf as a set only, but for the budget; and it stays within the budget. -/
theorem path_building (P : Prims) (R : Reader) (store : TrustStore R) (opts : VerifyOptions) :
    (∀ chainDer v, store.verifyChain P chainDer opts = .ok v →
      ∃ mids r root, IsPath P store opts chainDer v.leaf mids r root ∧
        v.path = (v.leaf :: mids).map Certificate.der ++ [r.der]) ∧
    (∀ der rest leaf e, R.parse der = .ok leaf →
      (opts.purpose = .ServerAuth → opts.hostname ≠ none) →
      store.verifyChain P (der :: rest) opts = .error e →
      ¬ store.RunsOut P (der :: rest) opts →
      ¬ ∃ mids r root, IsPath P store opts (der :: rest) leaf mids r root) ∧
    (∀ der rest rest' v, (∀ d ∈ rest, d ∈ rest') →
      store.verifyChain P (der :: rest) opts = .ok v →
      ¬ store.RunsOut P (der :: rest') opts →
      ∃ v', store.verifyChain P (der :: rest') opts = .ok v') ∧
    ∀ chainDer, ∀ s ∈ store.searched P chainDer opts, s.checks ≤ MAX_PATH_ATTEMPTS := by
  refine ⟨fun chainDer v h => verifyChain_path h, ?_, ?_, fun chainDer s hs => checks_le hs⟩
  · rintro der rest leaf e - hhost herr hbudget ⟨mids, r, root, hpath⟩
    obtain ⟨v, hv⟩ := verifyChain_of_path hhost hpath hbudget
    rw [hv] at herr
    cases herr
  · intro der rest rest' v hsub hv hbudget
    obtain ⟨mids, r, root, hpath, -⟩ := verifyChain_path hv
    obtain ⟨q, hq, -⟩ := except_bind_eq_ok.1 hv
    have hhost : opts.purpose = .ServerAuth → opts.hostname ≠ none :=
      fun hp hn => (query_eq_ok.1 hq).1 ⟨hp, hn⟩
    exact verifyChain_of_path hhost (hpath.mono rfl hsub) hbudget

def sampleReader : Reader where
  parse := fun der =>
    if der = sampleLeaf.der then .ok sampleLeaf
    else if der = sampleAnchor.der then .ok sampleAnchor
    else .error (.Asn1 "unexpected tag")
  peekSubjectKey := fun _ => none
  parseNameConstraints := fun _ => .error (.Asn1 "unexpected tag")
  parse_der := by
    intro der c h
    split_ifs at h with hleaf hanchor
    · rw [← Except.ok.inj h, hleaf]
    · rw [← Except.ok.inj h, hanchor]
  peek_eq := fun _ h => by cases h

/-- An anchor that is sent too, or a certificate that does not parse, is no hindrance. -/
example :
    (do
      let store ← (TrustStore.empty (R := sampleReader)).addDer sampleAnchor.der
      let v ← store.verifyChain samplePrims [sampleLeaf.der, [7], sampleAnchor.der, sampleLeaf.der]
        (sampleOptions "good.example.com")
      pure v.path).toOption = some [sampleLeaf.der, sampleAnchor.der] := by
  decide

end Lazaret.X509
