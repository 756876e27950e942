import MiosixKernel.Fat.FileRead

/-!
# Moving the file pointer

* `seekLoop_meets`: the loop over the clusters;
* **`fLseek_meets`**: the pointer is moved, and the file is not changed.
-/

namespace Miosix

open Lib Volume

/-- The start of the cluster, as the code computes it. -/
theorem and_not_bcs {x k : ℕ} (hx : x < 2 ^ 32) (hk : k ≤ 32) : x &&& (2 ^ 32 - 2 ^ k) = x / 2 ^ k * 2 ^ k := by
  have hmask : 2 ^ 32 - 2 ^ k = (2 ^ (32 - k) - 1) <<< k := by
    rw [Nat.shiftLeft_eq, Nat.sub_mul, ← Nat.pow_add, Nat.sub_add_cancel hk, Nat.one_mul]
  rw [hmask, ← Nat.shiftRight_eq_div_pow, ← Nat.shiftLeft_eq]
  refine Nat.eq_of_testBit_eq fun i => ?_
  simp only [Nat.testBit_and, Nat.testBit_shiftLeft, Nat.testBit_two_pow_sub_one, Nat.testBit_shiftRight]
  by_cases hi : i < 32
  · by_cases hki : k ≤ i
    · rw [show k + (i - k) = i by omega]
      simp only [hki, decide_true, Bool.true_and, Bool.and_eq_left_iff_imp, decide_eq_true_eq]
      exact fun _ => by omega
    · simp [hki]
  · have hbit : x.testBit i = false :=
      Nat.testBit_lt_two_pow (lt_of_lt_of_le hx (Nat.pow_le_pow_right (by decide) (by omega)))
    by_cases hki : k ≤ i
    · rw [show k + (i - k) = i by omega]
      simp [hbit]
    · simp [hki]

namespace OpenFile

variable {F : Prop} {f f' : OpenFile} {l l' : List ℕ} {lost lost' others : List (List ℕ)} {n c i clst ofs : ℕ}
  {v : ℕ → UInt8}

/-! ## The loop -/

/-- The cluster after one of the file: as it is in the file, or a new one, or none. -/
structure NextClust (F : Prop) (f f' : OpenFile) (l l' : List ℕ) (i clst : ℕ) : Prop where
  fp : f'.fp = f.fp
  vol : f'.fs.toVolume = f.fs.toVolume
  head : l'.headD 0 = l.headD 0
  clust : (l'[i + 1]? = some clst) ∨ F ∧ (f.fp.canWrite = true ∧ clst = 0 ∧ l'[i]? = l[i]? ∨ clst = 0xFFFFFFFF ∨
    f.fp.canWrite = false ∧ f.fs.nFatent ≤ clst)
  same : F ∨ l' = l
  exact : f.fs.drv.faults = [] → ∀ n v, f.Exact l n v → f'.Exact l' n v

theorem seekClust_meets (h : f.Safe l lost others) (hF : f.fs.drv.faults ≠ [] → F) (hget : l[i]? = some clst)
    (hroom : i + 1 < l.length ∨ F) :
    Meets F (seekClust f clst) f lost others fun a f' l' _ => NextClust F f f' l l' i a := by
  obtain ⟨hge, hlt⟩ := h.mem_l (List.mem_of_getElem? hget)
  have hnext := h.next_clust hget
  unfold seekClust
  refine Meets.ite (fun hw => ?_) fun hw => ?_
  · by_cases hfail : F
    · obtain ⟨r, fs', hres, hans⟩ := h.answered hget
      obtain ⟨hi, -⟩ := List.getElem?_eq_some_iff.1 hget
      obtain ⟨hnew, -, hhead⟩ := getElem?_extendAt (r := r) hi
      refine (createChain_meets h hres hans).mono fun a f' l' lost' hs hframe hq => ?_
      obtain ⟨rfl, hst⟩ | ⟨hf, rfl, hfp, hvol, rfl⟩ := hq
      · obtain ⟨-, -, rfl⟩ | ⟨rfl, rfl, -⟩ := hst.answer
        · exact ⟨hst.fp, hst.vol, hhead, .inl hnew, .inl hfail, hst.exact⟩
        · exact ⟨hst.fp, hst.vol, rfl, .inr ⟨hfail, .inl ⟨hw, rfl, rfl⟩⟩, .inr rfl, hst.exact⟩
      · exact ⟨hfp, hvol, rfl, .inr ⟨hfail, .inr (.inl rfl)⟩, .inr rfl, fun hnil => absurd hnil hf⟩
    · have hnil : f.fs.drv.faults = [] := by
        by_contra hne
        exact hfail (hF hne)
      have hsome : l[i + 1]? = some (f.fs.fat clst) := hnext.resolve_left fun hn => by
        rw [List.getElem?_eq_none_iff] at hn
        have := hroom.resolve_right hfail
        omega
      obtain ⟨hge', hlt'⟩ := h.mem_l (List.mem_of_getElem? hsome)
      obtain ⟨fs', hres, hshow⟩ : ∃ fs', f.fs.createChain clst f.fs.nFatent = some (f.fs.fat clst, fs') ∧ f.fs.Shows fs' :=
        FATFS.createChain_follows h.alloc.valid hge hlt hnil hge' hlt'
      have hnear := FATFS.near_createChain h.sized.placed hres
      obtain ⟨hs, hframe, hbytes⟩ := h.move hshow.keeps (h.near_window hnear) (h.alloc.of_shows hshow) fun _ => id
      exact .of_eq (Code.run_apply (by rw [hres]; rfl)) hs hframe ⟨rfl, hshow.vol, rfl, .inl hsome, .inr rfl,
        fun _ n v he => he.move h hshow.vol hbytes List.prefix_rfl⟩
  · refine (getFat_meets h hF (List.mem_of_getElem? hget)).mono fun a f' l' lost' hs hframe hq => ?_
    obtain ⟨rfl, rfl, hfp, hvol, hval, hexact⟩ := hq
    refine ⟨hfp, hvol, rfl, ?_, .inr rfl, fun _ => hexact⟩
    obtain rfl | ⟨hfail, rfl⟩ := hval
    · obtain ⟨hnone, hend⟩ | hsome := hnext
      · have hfail : F := hroom.resolve_left fun hlt => by
          rw [List.getElem?_eq_none_iff] at hnone
          omega
        exact .inr ⟨hfail, .inr (.inr ⟨by simpa using hw, hend⟩)⟩
      · exact .inl hsome
    · exact .inr ⟨hfail, .inr (.inl rfl)⟩

/-- Where the loop ends: in a cluster of the file, and as far as asked for unless something failed. -/
structure Followed (F : Prop) (f f' : OpenFile) (l l' : List ℕ) (goal clst ofs : ℕ) : Prop where
  fp : f'.fp = { f.fp with clust := f'.fp.clust, fptr := f'.fp.fptr }
  vol : f'.fs.toVolume = f.fs.toVolume
  head : l'.headD 0 = l.headD 0
  place : ∃ j, f'.fp.fptr = j * f.fs.bcs ∧ l'[j]? = some f'.fp.clust
  pos : 0 < ofs
  le : ofs ≤ f.fs.bcs
  clust : clst = f'.fp.clust ∨ clst = 0 ∧ ofs = f.fs.bcs
  goal_le : f'.fp.fptr + ofs ≤ goal
  goal_eq : f'.fp.fptr + ofs = goal ∨ F
  exact : f.fs.drv.faults = [] → ∀ n v, f.Exact l n v → f'.Exact l' n v

theorem seekLoop_meets (fuel : ℕ) (h : f.Safe l lost others) (hF : f.fs.drv.faults ≠ [] → F)
    (hget : l[i]? = some clst) (hclust : f.fp.clust = clst) (hptr : f.fp.fptr = i * f.fs.bcs) (hpos : 0 < ofs)
    (hfuel : ofs < fuel) (hroom : i * f.fs.bcs + ofs ≤ f.fs.bcs * l.length ∨ F) :
    Meets F (seekLoop f.fs.bcs fuel clst ofs) f lost others fun r f' l' _ =>
      Followed F f f' l l' (i * f.fs.bcs + ofs) r.1 r.2 := by
  induction fuel generalizing f l lost i clst ofs with
  | zero => omega
  | succ fuel ih =>
    have hbpos := h.sized.bcs_pos
    unfold seekLoop
    refine Meets.ite (fun hlt => ?_) fun hle => ?_
    · refine Meets.read_bind ((seekClust_meets h hF hget ?_).bind fun clst' f₁ l₁ lost₁ hs₁ hframe₁ hnext => ?_)
      · refine hroom.imp_left fun hr => ?_
        by_contra hc
        have hmul : f.fs.bcs * l.length ≤ f.fs.bcs * (i + 1) := Nat.mul_le_mul_left _ (by omega)
        rw [Nat.mul_succ, Nat.mul_comm _ i] at hmul
        omega
      · have hdone : clst' = 0 → F → l₁[i]? = l[i]? → Meets F (pure (clst', f.fs.bcs)) f₁ lost₁ others fun r f' l' _ =>
            Followed F f f' l l' (i * f.fs.bcs + ofs) r.1 r.2 := fun hz hfail hl₁ =>
          Meets.pure hs₁ ⟨by rw [hnext.fp], hnext.vol, hnext.head, ⟨i, by rw [hnext.fp, hptr],
            by rw [hl₁, hget, hnext.fp, hclust]⟩, hbpos, le_rfl, .inr ⟨hz, rfl⟩, by rw [hnext.fp, hptr]; omega,
            .inr hfail, hnext.exact⟩
        have hmem : l₁[i + 1]? = some clst' → 2 ≤ clst' ∧ clst' < f.fs.nFatent := fun hsome => by
          have := hs₁.mem_l (List.mem_of_getElem? hsome)
          rwa [hnext.vol] at this
        refine Meets.ite (fun hz => ?_) fun hz => Meets.ite (fun hff => ?_) fun hff =>
          Meets.ite (fun hout => ?_) fun hin => ?_
        · obtain hsome | ⟨hfail, ⟨-, -, hl₁⟩ | hff | ⟨hw, -⟩⟩ := hnext.clust
          · have := (hmem hsome).1
            omega
          · exact hdone hz.2 hfail hl₁
          · omega
          · rw [hw] at hz
            exact absurd hz.1 (by decide)
        · obtain hsome | ⟨hfail, -⟩ := hnext.clust
          · exact absurd hff (h.ne_error (hmem hsome).2)
          · exact Meets.abort hs₁ hfail (by decide)
        · obtain hsome | ⟨hfail, -⟩ := hnext.clust
          · have := hmem hsome
            omega
          · exact Meets.abort hs₁ hfail (by decide)
        · have hsome : l₁[i + 1]? = some clst' := by
            obtain hsome | ⟨-, ⟨hw, hzero, -⟩ | h' | ⟨-, hend⟩⟩ := hnext.clust
            · exact hsome
            · exact absurd ⟨hw, hzero⟩ hz
            · exact absurd h' hff
            · exact absurd (.inr hend) hin
          have hmul : (i + 1) * f.fs.bcs = i * f.fs.bcs + f.fs.bcs := Nat.succ_mul i _
          refine Meets.setFil_bind hs₁ ⟨rfl, rfl⟩ ⟨rfl, rfl⟩ hs₁.dsect fun hs₂ => ?_
          have hptr₁ : f₁.fp.fptr = i * f.fs.bcs := by rw [hnext.fp, hptr]
          have hrec := @ih _ _ _ (i + 1) clst' (ofs - f.fs.bcs) hs₂ (hframe₁.fail hF) hsome rfl
          dsimp only at hrec
          rw [hnext.vol, hptr₁, hmul] at hrec
          rw [hptr₁]
          refine (hrec rfl (by omega) (by omega) ?_).mono fun r f' l' lost' _ _ hq => ?_
          · obtain hfail | rfl := hnext.same
            · exact .inr hfail
            · exact hroom.imp_left fun hr => by omega
          · have hsum : i * f.fs.bcs + f.fs.bcs + (ofs - f.fs.bcs) = i * f.fs.bcs + ofs := by omega
            obtain ⟨hfp, hvol, hhead, hplace, hpos', hle', hcl, hgle, hgeq, hexact⟩ := hq
            rw [hsum] at hgle hgeq
            dsimp only at hfp hvol hplace hle' hcl
            rw [hnext.vol] at hvol hplace hle' hcl
            exact ⟨by rw [hfp, hnext.fp], hvol, hhead.trans hnext.head, hplace, hpos', hle', hcl, hgle, hgeq,
              fun hnil n v he => hexact (hframe₁.faults hnil) n v ((hnext.exact hnil n v he).fil rfl rfl rfl)⟩
    · exact Meets.pure h ⟨rfl, rfl, rfl, ⟨i, hptr, by rw [hget, hclust]⟩, hpos, by omega, .inl hclust.symm,
        by rw [hptr], .inl (by rw [hptr]), fun _ _ _ => id⟩

/-! ## Its start -/

/-- The first cluster of the file. -/
structure First (F : Prop) (f f' : OpenFile) (l l' : List ℕ) (clst : ℕ) : Prop where
  fp : f'.fp = { f.fp with sclust := l'.headD 0 }
  vol : f'.fs.toVolume = f.fs.toVolume
  clust : l'[0]? = some clst ∨ F ∧ clst = 0
  same : F ∨ l' = l
  exact : f.fs.drv.faults = [] → ∀ n v, f.Exact l n v → f'.Exact l' n v

theorem firstClust_meets (h : f.Safe l lost others) (hfirst : f.fp.sclust = l.headD 0)
    (hroom : 0 < l.length ∨ F) :
    Meets F firstClust f lost others fun clst f' l' _ => First F f f' l l' clst := by
  unfold firstClust
  refine Meets.read_bind (Meets.ite (fun hz => ?_) fun hne => ?_)
  · obtain ⟨-, rfl⟩ := (h.first_cases hfirst).resolve_right fun hne => hne.1 hz
    have hfail : F := hroom.resolve_left (lt_irrefl 0)
    obtain ⟨r, fs', hres, hans⟩ := h.answered_nil
    refine (createChain_meets h hres hans).bind fun clst f₁ l₁ lost₁ hs₁ hframe₁ hq => ?_
    refine Meets.ite (fun _ => Meets.abort hs₁ hfail (by decide)) fun _ =>
      Meets.ite (fun _ => Meets.abort hs₁ hfail (by decide)) fun hff => ?_
    obtain ⟨rfl, hst⟩ | ⟨-, rfl, -⟩ := hq
    · refine Meets.setFil_bind hs₁ ⟨rfl, rfl⟩ ⟨rfl, rfl⟩ hs₁.dsect fun hs₂ => Meets.pure hs₂ ?_
      have hexact : f.fs.drv.faults = [] → ∀ n v, f.Exact [] n v →
          (⟨f₁.fs, { f₁.fp with sclust := clst }⟩ : OpenFile).Exact l₁ n v :=
        fun hnil n v he => (hst.exact hnil n v he).fil rfl rfl rfl
      obtain ⟨-, -, rfl⟩ | ⟨rfl, rfl, -⟩ := hst.answer
      · exact ⟨by rw [hst.fp]; rfl, hst.vol, .inl rfl, .inl hfail, hexact⟩
      · exact ⟨by rw [hst.fp]; rfl, hst.vol, .inr ⟨hfail, rfl⟩, .inl hfail, hexact⟩
    · exact absurd rfl hff
  · obtain ⟨-, hget⟩ := (h.first_cases hfirst).resolve_left fun hz => hne hz.1
    exact Meets.pure h ⟨by rw [← hfirst], rfl, .inl hget, .inr rfl, fun _ _ _ => id⟩

/-- Where the loop starts: in cluster `j` of the file. -/
structure Started (F : Prop) (f f' : OpenFile) (l l' : List ℕ) (j clst : ℕ) : Prop where
  fp : f'.fp = { f.fp with sclust := l'.headD 0, clust := clst, fptr := f'.fp.fptr }
  vol : f'.fs.toVolume = f.fs.toVolume
  place : (l'[j]? = some clst ∧ f'.fp.fptr = j * f.fs.bcs) ∨ F ∧ clst = 0 ∧ f'.fp.fptr = 0
  same : F ∨ l' = l
  exact : f.fs.drv.faults = [] → ∀ n v, f.Exact l n v → f'.Exact l' n v

theorem seekStart_meets {same : Prop} [Decidable same] {start : ℕ} (h : f.Safe l lost others)
    (hfirst : f.fp.sclust = l.headD 0) (hptr : f.fp.fptr = 0)
    (hstart : same → start = i * f.fs.bcs ∧ l[i]? = some f.fp.clust) (hroom : 0 < l.length ∨ F) :
    Meets F (seekStart f same start) f lost others fun clst f' l' _ =>
      Started F f f' l l' (if same then i else 0) clst := by
  unfold seekStart
  refine Meets.ite (fun hs => ?_) fun hs => ?_
  · obtain ⟨rfl, hget⟩ := hstart hs
    refine Meets.setFil_bind h ⟨rfl, rfl⟩ ⟨rfl, rfl⟩ h.dsect fun hs' => Meets.pure hs' ?_
    rw [if_pos hs]
    exact ⟨by rw [← hfirst], rfl, .inl ⟨hget, rfl⟩, .inr rfl, fun _ n v he => he.fil rfl rfl rfl⟩
  · refine (firstClust_meets h hfirst hroom).bind fun clst f₁ l₁ lost₁ hs₁ hframe₁ hq => ?_
    refine Meets.setFil_bind hs₁ ⟨rfl, rfl⟩ ⟨rfl, rfl⟩ hs₁.dsect fun hs' => Meets.pure hs' ?_
    rw [if_neg hs]
    have hptr₁ : f₁.fp.fptr = 0 := by rw [hq.fp, hptr]
    refine ⟨by rw [hq.fp], hq.vol, ?_, hq.same, fun hnil n v he => (hq.exact hnil n v he).fil rfl rfl rfl⟩
    refine hq.clust.imp (fun hget => ⟨hget, by rw [Nat.zero_mul]; exact hptr₁⟩) fun hz => ⟨hz.1, hz.2, hptr₁⟩

/-! ## Its end -/

/-- The place of the file pointer, before its sector is in the buffer. -/
structure Sought (F : Prop) (f f' : OpenFile) (l l' : List ℕ) (ofs nsect : ℕ) : Prop where
  fp : f'.fp = { f.fp with sclust := l'.headD 0, clust := f'.fp.clust, fptr := f'.fp.fptr }
  vol : f'.fs.toVolume = f.fs.toVolume
  clust : 0 < f'.fp.fptr → l'[(f'.fp.fptr - 1) / f.fs.bcs]? = some f'.fp.clust
  sect : f'.fp.fptr % 512 ≠ 0 → nsect = f.fs.sector f'.fp.clust + f'.fp.fptr % f.fs.bcs / 512
  le : f'.fp.fptr ≤ ofs
  eq : f'.fp.fptr = ofs ∨ F
  exact : f.fs.drv.faults = [] → ∀ n v, f.Exact l n v → f'.Exact l' n v

theorem seekEnd_meets {f₀ : OpenFile} (h : f.Safe l lost others) (hvol : f₀.fs.toVolume = f.fs.toVolume)
    (hget : l[i]? = some f.fp.clust) (hptr : f.fp.fptr = i * f.fs.bcs) (hpos : 0 < ofs) (hle : ofs ≤ f.fs.bcs)
    (hfirst : f.fp.sclust = l.headD 0) (hclust : clst = f.fp.clust ∨ clst = 0 ∧ ofs = f.fs.bcs) :
    Meets F (seekEnd f₀ clst ofs) f lost others fun nsect f' l' _ => l' = l ∧
      Sought F f f' l l (f.fp.fptr + ofs) nsect := by
  have hbpos := h.sized.bcs_pos
  have hbcs : f.fs.bcs = f.fs.csize * 512 := rfl
  have hmul : i * f.fs.bcs = f.fs.csize * i * 512 := by rw [hbcs, Nat.mul_comm i, Nat.mul_right_comm]
  have hmod : (f.fp.fptr + ofs) % 512 = ofs % 512 := by rw [hptr, hmul, Nat.mul_add_mod']
  have hidx : (f.fp.fptr + ofs - 1) / f.fs.bcs = i := by
    rw [hptr, Nat.add_sub_assoc hpos, Nat.mul_comm, Nat.mul_add_div hbpos, Nat.div_eq_of_lt (by omega), Nat.add_zero]
  have hdone : ∀ nsect, (ofs % 512 ≠ 0 → nsect = f.fs.sector f.fp.clust + ofs / 512) →
      Sought F f ⟨f.fs, { f.fp with fptr := f.fp.fptr + ofs }⟩ l l (f.fp.fptr + ofs) nsect := by
    intro nsect hn
    refine ⟨by rw [← hfirst], rfl, fun _ => by dsimp only; rw [hidx, hget], fun hne => ?_, le_rfl, .inl rfl,
      fun _ n v he => he.fil rfl rfl rfl⟩
    dsimp only at hne ⊢
    rw [hmod] at hne
    rw [hn hne, hptr, Nat.mul_add_mod', Nat.mod_eq_of_lt (by omega)]
  unfold seekEnd
  refine Meets.setFil_bind h ⟨rfl, rfl⟩ ⟨rfl, rfl⟩ h.dsect fun hs => Meets.ite (fun hne => ?_) fun heq => ?_
  · obtain rfl : clst = f.fp.clust := hclust.resolve_right fun hz => hne (by rw [hz.2, hbcs, Nat.mul_mod_left])
    obtain ⟨hge, hlt⟩ := h.mem_l (List.mem_of_getElem? hget)
    obtain ⟨hsect, hne0⟩ := clust2sect_eq h.sized hge hlt
    have hsect' : f₀.fs.clust2sect f.fp.clust = f.fs.sector f.fp.clust := by
      rw [← hsect]
      unfold FATFS.clust2sect
      rw [hvol]
    rw [hsect']
    refine Meets.ite (fun hz => absurd hz hne0) fun _ => Meets.pure hs ⟨rfl, ?_⟩
    exact hdone _ fun _ => rfl
  · exact Meets.pure hs ⟨rfl, hdone 0 fun hne => absurd hne heq⟩

theorem Sought.of_step {f₁ : OpenFile} {l₁ : List ℕ} {ofs' nsect : ℕ} (h : Sought F f₁ f' l₁ l' ofs' nsect)
    (hfp : f₁.fp = { f.fp with sclust := l₁.headD 0, clust := f₁.fp.clust, fptr := f₁.fp.fptr })
    (hvol : f₁.fs.toVolume = f.fs.toVolume) (hle : ofs' ≤ ofs) (heq : ofs' = ofs ∨ F)
    (hexact : f.fs.drv.faults = [] → ∀ n v, f.Exact l n v → f₁.Exact l₁ n v)
    (hfaults : f.fs.drv.faults = [] → f₁.fs.drv.faults = []) : Sought F f f' l l' ofs nsect := by
  have hclust := h.clust
  have hsect := h.sect
  rw [hvol] at hclust hsect
  refine ⟨by rw [h.fp, hfp], h.vol.trans hvol, hclust, hsect, h.le.trans hle, ?_,
    fun hnil n v he => h.exact (hfaults hnil) n v (hexact hnil n v he)⟩
  obtain he | hfail := h.eq
  · exact heq.imp_left fun he' => he.trans he'
  · exact .inr hfail

theorem seekFrom_meets {ifptr : ℕ} (h : f.Safe l lost others) (hF : f.fs.drv.faults ≠ [] → F)
    (hfirst : f.fp.sclust = l.headD 0) (hptr : f.fp.fptr = 0) (hi : ifptr < 2 ^ 32)
    (hclust : 0 < ifptr → l[(ifptr - 1) / f.fs.bcs]? = some f.fp.clust) (hpos : 0 < ofs)
    (hroom : ofs ≤ f.fs.bcs * l.length ∨ F) :
    Meets F (seekFrom ifptr ofs) f lost others fun nsect f' l' _ => Sought F f f' l l' ofs nsect := by
  have hbpos := h.sized.bcs_pos
  obtain ⟨k, hk, hcsize⟩ := h.sized.csize
  have hbcs : f.fs.csize * 512 = f.fs.bcs := rfl
  have hstart : (ifptr - 1) &&& (2 ^ 32 - f.fs.bcs) = (ifptr - 1) / f.fs.bcs * f.fs.bcs := by
    rw [bcs, hcsize, show (512 : ℕ) = 2 ^ 9 from rfl, ← Nat.pow_add]
    exact and_not_bcs (by omega) (by omega)
  have hlen : 0 < l.length ∨ F := hroom.imp_left fun hr => Nat.pos_of_ne_zero fun h0 => by
    rw [h0, Nat.mul_zero] at hr
    omega
  unfold seekFrom
  refine Meets.read_bind ?_
  dsimp only
  rw [hbcs, hstart]
  refine (seekStart_meets (i := (ifptr - 1) / f.fs.bcs) h hfirst hptr (fun hs => ⟨rfl, hclust hs.1⟩) hlen).bind
    fun clst f₁ l₁ lost₁ hs₁ hframe₁ hst => ?_
  refine Meets.ite (fun hne => ?_) fun hz => ?_
  · obtain ⟨j, hj⟩ : ∃ j, (if 0 < ifptr ∧ (ifptr - 1) / f.fs.bcs ≤ (ofs - 1) / f.fs.bcs then (ifptr - 1) / f.fs.bcs
      else 0) = j := ⟨_, rfl⟩
    have hsum : 0 < (if 0 < ifptr ∧ (ifptr - 1) / f.fs.bcs ≤ (ofs - 1) / f.fs.bcs then
        ofs - (ifptr - 1) / f.fs.bcs * f.fs.bcs else ofs) ∧ j * f.fs.bcs + (if 0 < ifptr ∧ (ifptr - 1) / f.fs.bcs ≤
          (ofs - 1) / f.fs.bcs then ofs - (ifptr - 1) / f.fs.bcs * f.fs.bcs else ofs) = ofs := by
      rw [← hj]
      split_ifs with hs
      · have hle := Nat.mul_le_mul_right f.fs.bcs hs.2
        have hdiv := Nat.div_mul_le_self (ofs - 1) f.fs.bcs
        omega
      · omega
    rw [hj] at hst
    generalize (if 0 < ifptr ∧ (ifptr - 1) / f.fs.bcs ≤ (ofs - 1) / f.fs.bcs then
      ofs - (ifptr - 1) / f.fs.bcs * f.fs.bcs else ofs) = ofs₁ at hsum ⊢
    obtain ⟨hpos₁, hgoal⟩ := hsum
    obtain ⟨hget, hptr₁⟩ := hst.place.resolve_right fun hz => hne hz.2.1
    have hclust₁ : f₁.fp.clust = clst := by rw [hst.fp]
    have hloop := seekLoop_meets (ofs + 1) hs₁ (hframe₁.fail hF) hget hclust₁ (by rw [hst.vol, hptr₁]) hpos₁ (by omega)
    rw [hst.vol, hgoal] at hloop
    refine (hloop ?_).bind fun r f₂ l₂ lost₂ hs₂ hframe₂ hq => ?_
    · obtain hfail | rfl := hst.same
      · exact .inr hfail
      · exact hroom
    · have hfp₂ : f₂.fp = { f.fp with sclust := l₂.headD 0, clust := f₂.fp.clust, fptr := f₂.fp.fptr } := by
        rw [hq.fp, hst.fp, hq.head]
      have hvol : f₂.fs.toVolume = f.fs.toVolume := hq.vol.trans hst.vol
      obtain ⟨m, hptr₂, hget₂⟩ := hq.place
      have hle := hq.le
      have hcl := hq.clust
      rw [← hq.vol] at hptr₂ hle hcl
      refine (seekEnd_meets hs₂ hvol.symm hget₂ hptr₂ hq.pos hle (by rw [hfp₂]) hcl).mono
        fun nsect f' l' lost' _ _ hend => ?_
      obtain ⟨rfl, hend⟩ := hend
      exact hend.of_step hfp₂ hvol hq.goal_le hq.goal_eq
        (fun hnil n v he => hq.exact (hframe₁.faults hnil) n v (hst.exact hnil n v he))
        fun hnil => hframe₂.faults (hframe₁.faults hnil)
  · rw [not_not] at hz
    have hzero : F ∧ f₁.fp.fptr = 0 := by
      obtain ⟨hget, -⟩ | ⟨hfail, -, hptr₁⟩ := hst.place
      · have := (hs₁.mem_l (List.mem_of_getElem? hget)).1
        omega
      · exact ⟨hfail, hptr₁⟩
    have hfp₁ : f₁.fp = { f.fp with sclust := l₁.headD 0, clust := f₁.fp.clust, fptr := f₁.fp.fptr } := by
      rw [hst.fp]
    exact Meets.pure hs₁ ⟨hfp₁, hst.vol, fun hp => absurd hp (by omega), fun hne => absurd hne (by omega), by omega,
      .inr hzero.1, hst.exact⟩

/-! ## The file pointer is moved -/

/-- The file pointer is at `p`, and the file is as it was. -/
structure Moved (F : Prop) (f f' : OpenFile) (l l' : List ℕ) (ofs : ℕ) : Prop where
  fields : f'.fp.fsize = f.fp.fsize ∧ f'.fp.written = f.fp.written ∧ f'.fp.err = f.fp.err
  located : f'.Located l'
  le : f'.fp.fptr ≤ ofs
  eq : f'.fp.fptr = ofs ∨ F
  exact : f.fs.drv.faults = [] → ∀ n v, f.Exact l n v → f'.Exact l' n v

/-- The sector at the file pointer is in the buffer. -/
theorem seekFill_meets {nsect : ℕ} (h : f.Safe l lost others) (hF : f.fs.drv.faults ≠ [] → F)
    (hown : f.fp.fptr % 512 ≠ 0 → f.Own l lost nsect) :
    Meets F (seekFill nsect) f lost others fun _ f' l' lost' => l' = l ∧ lost' = lost ∧
      f'.fp = { f.fp with dsect := f'.fp.dsect, buf := f'.fp.buf, dirty := f'.fp.dirty } ∧
        (f.fp.fptr % 512 ≠ 0 → f'.fp.dsect = nsect) ∧ f'.fs.toVolume = f.fs.toVolume ∧
          ∀ n v, f.Exact l n v → f'.Exact l n v := by
  unfold seekFill
  refine Meets.read_bind (Meets.ite (fun hc => ?_) fun hc => ?_)
  · rw [← Code.bind_assoc]
    refine (load_meets h hF nsect).bind fun _ f₁ l₁ lost₁ hs₁ hframe₁ hq => ?_
    obtain ⟨rfl, rfl, hfp, hvol, hexact⟩ := hq
    refine (setDsect_meets hs₁ (hown hc.1) hfp hvol hexact).mono fun _ f' l' lost' _ _ hq => ?_
    obtain ⟨rfl, rfl, hfp', hvol', hexact'⟩ := hq
    exact ⟨rfl, rfl, by rw [hfp'], fun _ => by rw [hfp'], hvol', hexact'⟩
  · refine Meets.pure h ⟨rfl, rfl, rfl, fun hne => ?_, rfl, fun _ _ => id⟩
    by_contra hd
    exact hc ⟨hne, fun he => hd he.symm⟩

/-- **Moving the file pointer.** The pointer is moved to an offset in the file, and the file is not changed. If a
transfer fails, the pointer may stop before. -/
theorem fLseek_meets (h : f.Safe l lost others) (hF : f.fs.drv.faults ≠ [] → F) (hl : f.Located l)
    (herr : f.fp.err = .FR_OK) (hptr : f.fp.fptr ≤ f.fp.fsize) (hsize : f.fp.fsize < 2 ^ 32) (hofs : ofs ≤ f.fp.fsize)
    (hroom : f.fp.fsize ≤ f.fs.bcs * l.length ∨ F) :
    Meets F (fLseek ofs) f lost others fun _ f' l' _ => Moved F f f' l l' ofs := by
  unfold fLseek
  refine Meets.read_bind ?_
  rw [if_neg (by simp [herr])]
  dsimp only
  rw [if_neg (show ¬ (f.fp.fsize < ofs ∧ ¬ f.fp.canWrite = true) by omega)]
  refine Meets.setFil_bind h ⟨rfl, rfl⟩ ⟨rfl, rfl⟩ h.dsect fun hs => ?_
  refine Meets.bind (Q := fun nsect f' l' _ => Sought F ⟨f.fs, { f.fp with fptr := 0 }⟩ f' l l' ofs nsect)
    (Meets.ite (fun hne => ?_) fun heq => ?_) fun nsect f₁ l₁ lost₁ hs₁ hframe₁ hq => ?_
  · exact seekFrom_meets hs hF hl.first rfl (by omega) hl.clust (Nat.pos_of_ne_zero hne)
      (hroom.imp_left fun hr => le_trans hofs hr)
  · rw [not_not] at heq
    subst heq
    exact Meets.pure hs ⟨by rw [← hl.first], rfl, fun hp => absurd hp (lt_irrefl 0), fun hne => absurd rfl hne, le_rfl,
      .inl rfl, fun _ n v he => he⟩
  · have hclust := hq.clust
    have hsect := hq.sect
    have hvol₁ : f₁.fs.toVolume = f.fs.toVolume := hq.vol
    dsimp only at hclust hsect
    have hown : f₁.fp.fptr % 512 ≠ 0 → f₁.Own l₁ lost₁ nsect := fun hne => by
      refine ⟨_, List.mem_append_left _ (List.mem_of_getElem? (hclust (Nat.pos_of_ne_zero fun h0 => hne (by rw [h0])))), ?_⟩
      have := h.sized.offset_lt (o := f₁.fp.fptr)
      rw [hsect hne, hvol₁]
      exact ⟨by omega, by omega⟩
    refine (seekFill_meets hs₁ (hframe₁.fail hF) hown).bind
      fun _ f₂ l₂ lost₂ hs₂ hframe₂ hfill => ?_
    obtain ⟨rfl, rfl, hfp₂, hdsect, hvol₂, hexact₂⟩ := hfill
    have hptr₂ : f₂.fp.fptr = f₁.fp.fptr := by rw [hfp₂]
    have hsize₂ : f₂.fp.fsize = f.fp.fsize := by rw [hfp₂, hq.fp]
    have hvol : f₂.fs.toVolume = f.fs.toVolume := hvol₂.trans hvol₁
    have hclust₂ : f₂.fp.clust = f₁.fp.clust := by rw [hfp₂]
    have hle := hq.le
    unfold seekExtend
    refine Meets.read_bind (Meets.ite (fun hlt => absurd hlt (by omega)) fun _ => Meets.pure hs₂ ?_)
    refine ⟨⟨hsize₂, by rw [hfp₂, hq.fp], by rw [hfp₂, hq.fp]⟩, ⟨by rw [hfp₂, hq.fp], ?_, ?_⟩, by omega,
      by rw [hptr₂]; exact hq.eq, fun hnil n v he => hexact₂ n v (hq.exact hnil n v (he.fil rfl rfl rfl))⟩
    · rw [hptr₂, hvol, hclust₂]
      exact hclust
    · rw [hptr₂, hvol, hclust₂]
      exact fun hne => (hdsect hne).trans (hsect hne)

end OpenFile

end Miosix
