/-!
Values under keys, one for each key. A new key goes to the end and a known one keeps its place.
-/

namespace StaleQuery

abbrev Ledger (κ α : Type) := List (κ × α)

namespace Ledger

variable {κ α : Type} [DecidableEq κ]

def get? (key : κ) : Ledger κ α → Option α
  | [] => none
  | (k, v) :: rest => if k = key then some v else get? key rest

def put (key : κ) (value : α) : Ledger κ α → Ledger κ α
  | [] => [(key, value)]
  | (k, v) :: rest => if k = key then (k, value) :: rest else (k, v) :: put key value rest

def erase (key : κ) (ledger : Ledger κ α) : Ledger κ α :=
  ledger.filter (·.1 ≠ key)

theorem get?_put_self (key : κ) (value : α) (ledger : Ledger κ α) :
    get? key (put key value ledger) = some value := by
  induction ledger with
  | nil => simp [put, get?]
  | cons entry rest ih =>
    by_cases h : entry.1 = key <;> simp [put, get?, h, ih]

theorem get?_put_of_ne {key other : κ} (h : other ≠ key) (value : α) (ledger : Ledger κ α) :
    get? other (put key value ledger) = get? other ledger := by
  induction ledger with
  | nil => simp [put, get?, Ne.symm h]
  | cons entry rest ih =>
    by_cases hk : entry.1 = key
    · simp [put, get?, hk, Ne.symm h]
    · by_cases ho : entry.1 = other
      · simp [put, get?, ho, h]
      · simp [put, get?, hk, ho, ih]

theorem get?_erase_self (key : κ) (ledger : Ledger κ α) : get? key (erase key ledger) = none := by
  induction ledger with
  | nil => rfl
  | cons entry rest ih =>
    by_cases h : entry.1 = key
    · simpa [erase, h] using ih
    · simpa [erase, get?, h] using ih

theorem get?_erase_of_ne {key other : κ} (h : other ≠ key) (ledger : Ledger κ α) :
    get? other (erase key ledger) = get? other ledger := by
  induction ledger with
  | nil => rfl
  | cons entry rest ih =>
    by_cases hk : entry.1 = key
    · have ho : entry.1 ≠ other := fun he => h (he.symm.trans hk)
      simpa [erase, get?, hk, Ne.symm h] using ih
    · by_cases ho : entry.1 = other
      · simp [erase, get?, ho, h]
      · simpa [erase, get?, hk, ho] using ih

end Ledger
end StaleQuery
