import Mathlib.Data.List.Nodup

/-! # Transaction types (`xrla-common/src/tx_types.rs`)

    The name under which xrpld stores a transaction type. -/

namespace LedgerArchive

/-- An unknown code has no name. -/
def tx_type_name (code : UInt16) : Option String :=
  match code.toNat with
  | 0 => some "Payment"
  | 1 => some "EscrowCreate"
  | 2 => some "EscrowFinish"
  | 3 => some "AccountSet"
  | 4 => some "EscrowCancel"
  | 5 => some "SetRegularKey"
  | 7 => some "OfferCreate"
  | 8 => some "OfferCancel"
  | 10 => some "TicketCreate"
  | 12 => some "SignerListSet"
  | 13 => some "PaymentChannelCreate"
  | 14 => some "PaymentChannelFund"
  | 15 => some "PaymentChannelClaim"
  | 16 => some "CheckCreate"
  | 17 => some "CheckCash"
  | 18 => some "CheckCancel"
  | 19 => some "DepositPreauth"
  | 20 => some "TrustSet"
  | 21 => some "AccountDelete"
  | 25 => some "NFTokenMint"
  | 26 => some "NFTokenBurn"
  | 27 => some "NFTokenCreateOffer"
  | 28 => some "NFTokenCancelOffer"
  | 29 => some "NFTokenAcceptOffer"
  | 30 => some "Clawback"
  | 31 => some "AMMClawback"
  | 35 => some "AMMCreate"
  | 36 => some "AMMDeposit"
  | 37 => some "AMMWithdraw"
  | 38 => some "AMMVote"
  | 39 => some "AMMBid"
  | 40 => some "AMMDelete"
  | 41 => some "XChainCreateClaimID"
  | 42 => some "XChainCommit"
  | 43 => some "XChainClaim"
  | 44 => some "XChainAccountCreateCommit"
  | 45 => some "XChainAddClaimAttestation"
  | 46 => some "XChainAddAccountCreateAttestation"
  | 47 => some "XChainModifyBridge"
  | 48 => some "XChainCreateBridge"
  | 49 => some "DIDSet"
  | 50 => some "DIDDelete"
  | 51 => some "OracleSet"
  | 52 => some "OracleDelete"
  | 53 => some "LedgerStateFix"
  | 54 => some "MPTokenIssuanceCreate"
  | 55 => some "MPTokenIssuanceDestroy"
  | 56 => some "MPTokenIssuanceSet"
  | 57 => some "MPTokenAuthorize"
  | 58 => some "CredentialCreate"
  | 59 => some "CredentialAccept"
  | 60 => some "CredentialDelete"
  | 61 => some "NFTokenModify"
  | 62 => some "PermissionedDomainSet"
  | 63 => some "PermissionedDomainDelete"
  | 64 => some "DelegateSet"
  | 65 => some "VaultCreate"
  | 66 => some "VaultSet"
  | 67 => some "VaultDelete"
  | 68 => some "VaultDeposit"
  | 69 => some "VaultWithdraw"
  | 70 => some "VaultClawback"
  | 71 => some "Batch"
  | 74 => some "LoanBrokerSet"
  | 75 => some "LoanBrokerDelete"
  | 76 => some "LoanBrokerCoverDeposit"
  | 77 => some "LoanBrokerCoverWithdraw"
  | 78 => some "LoanBrokerCoverClawback"
  | 80 => some "LoanSet"
  | 81 => some "LoanDelete"
  | 82 => some "LoanManage"
  | 84 => some "LoanPay"
  | 85 => some "ConfidentialMPTConvert"
  | 86 => some "ConfidentialMPTMergeInbox"
  | 87 => some "ConfidentialMPTConvertBack"
  | 88 => some "ConfidentialMPTSend"
  | 89 => some "ConfidentialMPTClawback"
  | 90 => some "SponsorshipTransfer"
  | 91 => some "SponsorshipSet"
  | 92 => some "ConfidentialMPTMirrorUpdate"
  | 100 => some "EnableAmendment"
  | 101 => some "SetFee"
  | 102 => some "UNLModify"
  | _ => none

end LedgerArchive
